import PolishNotation.Links.Table

namespace PolishNotation

namespace LinkTable

variable {count : Nat} {tokens : Vector Token count}

/-- The earlier of two candidates wins unless the later one has a lower depth. -/
def shallower (tokens : Vector Token count) (best : Option (Fin count)) (candidate : Fin count) :
    Fin count :=
  match best with
  | none => candidate
  | some index =>
      if (tokens.get candidate).depth < (tokens.get index).depth then candidate else index

/-- The search ends at the first token that is not deeper and passes over every linked token. -/
def searchRoot (table : LinkTable tokens) (depth : Int) (best : Option (Fin count)) :
    List (Fin count) → Option (Fin count)
  | [] => best
  | candidate :: rest =>
      if (tokens.get candidate).depth ≤ depth then best
      else if table.isFree candidate then
        table.searchRoot depth (some (shallower tokens best candidate)) rest
      else table.searchRoot depth best rest

/-- The root of a group is the first free candidate of the lowest depth. -/
def groupRoot? (table : LinkTable tokens) (index : Fin count)
    (candidates : List (Fin count)) : Option (Fin count) :=
  table.searchRoot (tokens.get index).depth none candidates

/-- The run of an operator ends in front of the first candidate that is not deeper than it, linked
or not. Without such a candidate it ends with the list. -/
def runLength (tokens : Vector Token count) (index : Fin count) (candidates : List (Fin count)) :
    Nat :=
  candidates.findIdx fun candidate => (tokens.get candidate).depth ≤ (tokens.get index).depth

/-- At this position of the run stands a free candidate. -/
structure IsFreeAt (table : LinkTable tokens) (index : Fin count) (candidates : List (Fin count))
    (position : Nat) (candidate : Fin count) : Prop where
  listed : candidates[position]? = some candidate
  inRun : position < runLength tokens index candidates
  free : table.isFree candidate

/-- At this position stands a free candidate of the lowest depth, and no earlier one is as low. -/
structure IsFirstLowestAt (table : LinkTable tokens) (index : Fin count)
    (candidates : List (Fin count)) (position : Nat) (root : Fin count) : Prop where
  freeAt : table.IsFreeAt index candidates position root
  lowest : ∀ otherPosition other, table.IsFreeAt index candidates otherPosition other →
    (tokens.get root).depth ≤ (tokens.get other).depth
  first : ∀ otherPosition other, table.IsFreeAt index candidates otherPosition other →
    (tokens.get other).depth = (tokens.get root).depth → position ≤ otherPosition

/-- An empty slot takes the root of the group among its candidates. -/
def linkGroup (table : LinkTable tokens) (place : Place count)
    (candidates : List (Fin count)) : LinkTable tokens :=
  match table.slot place with
  | some _ => table
  | none =>
      match table.groupRoot? place.index candidates with
      | none => table
      | some root => table.fill place (.operator root)

/-- The tokens before an operator, the nearest first, are the candidates of its left slot, and the
tokens after it those of its right slot. -/
def linkGroupsAround (before : List (Fin count)) (table : LinkTable tokens) :
    List (Fin count) → LinkTable tokens
  | [] => table
  | index :: after =>
      linkGroupsAround (index :: before)
        ((table.linkGroup ⟨.left, index⟩ before).linkGroup ⟨.right, index⟩ after) after

/-- Every operator is visited once in order. -/
def linkBetweenGroups (table : LinkTable tokens) : LinkTable tokens :=
  linkGroupsAround [] table (List.finRange count)

/-- The candidates of a place lie on its side, the nearest first. -/
def candidates (place : Place count) : List (Fin count) :=
  match place.side with
  | .left => (List.finRange count).reverse.filter fun index => index < place.index
  | .right => (List.finRange count).filter fun index => place.index < index

/-- The places may be visited in any order. -/
def linkGroups (table : LinkTable tokens) (places : List (Place count)) :
    LinkTable tokens :=
  places.foldl (fun current place => current.linkGroup place (candidates place)) table

theorem mem_candidates {place : Place count} {index : Fin count} :
    index ∈ candidates place ↔
      match place.side with
      | .left => index < place.index
      | .right => place.index < index := by
  rcases place with ⟨side, target⟩
  cases side <;> simp [candidates, List.mem_filter]

/-- The left candidates of an operator are the operators before it in the row of all operators. -/
theorem candidates_left {before after : List (Fin count)} {index : Fin count}
    (row : List.finRange count = before ++ index :: after) :
    candidates ⟨.left, index⟩ = before.reverse := by
  have sorted : (before ++ index :: after).Pairwise (· < ·) := row ▸ List.pairwise_lt_finRange _
  obtain ⟨-, rest, below⟩ := List.pairwise_append.1 sorted
  have above := (List.pairwise_cons.1 rest).1
  have kept : before.filter (fun other => decide (other < index)) = before :=
    List.filter_eq_self.2 fun other present => by
      simpa using below other present index List.mem_cons_self
  have dropped : after.filter (fun other => decide (other < index)) = [] :=
    List.filter_eq_nil_iff.2 fun other present => by
      simpa using Fin.le_of_lt (above other present)
  simp [candidates, row, List.filter_append, kept, dropped]

/-- The right candidates of an operator are the operators after it in the row of all operators. -/
theorem candidates_right {before after : List (Fin count)} {index : Fin count}
    (row : List.finRange count = before ++ index :: after) :
    candidates ⟨.right, index⟩ = after := by
  have sorted : (before ++ index :: after).Pairwise (· < ·) := row ▸ List.pairwise_lt_finRange _
  obtain ⟨-, rest, below⟩ := List.pairwise_append.1 sorted
  have above := (List.pairwise_cons.1 rest).1
  have kept : after.filter (fun other => decide (index < other)) = after :=
    List.filter_eq_self.2 fun other present => by simpa using above other present
  have dropped : before.filter (fun other => decide (index < other)) = [] :=
    List.filter_eq_nil_iff.2 fun other present => by
      simpa using Fin.le_of_lt (below other present index List.mem_cons_self)
  simp [candidates, row, List.filter_append, kept, dropped]

theorem linkGroupsAround_eq (table : LinkTable tokens) (before after : List (Fin count))
    (row : List.finRange count = before.reverse ++ after) :
    linkGroupsAround before table after =
      table.linkGroups (after.flatMap fun index => [⟨.left, index⟩, ⟨.right, index⟩]) := by
  induction after generalizing before table with
  | nil => rfl
  | cons index after ih =>
      have left := candidates_left row
      have right := candidates_right row
      rw [List.reverse_reverse] at left
      rw [linkGroupsAround, ih _ (index :: before) (by simpa using row)]
      simp [linkGroups, left, right]

/-- The pass visits the places in their common order. -/
theorem linkBetweenGroups_eq (table : LinkTable tokens) :
    table.linkBetweenGroups = table.linkGroups (Place.all count) :=
  linkGroupsAround_eq table [] _ rfl

end LinkTable

end PolishNotation
