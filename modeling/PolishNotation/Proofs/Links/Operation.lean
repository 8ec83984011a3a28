import PolishNotation.Links
import PolishNotation.Links.Unfolding
import PolishNotation.Proofs.Links.Adoption
import PolishNotation.Proofs.Links.Operands

namespace PolishNotation

variable {count : Nat} {tokens : Vector Token count}

namespace LinkTable

variable {table next : LinkTable tokens}

theorem exists_links_adopt (table : LinkTable tokens) (index node : Fin count) :
    ∃ links, table.adopt index node = table.fillAll (operatorFillings links) := by
  rw [adopt]
  cases table.parent.get node with
  | none => exact ⟨[(⟨.left, index⟩, node)], rfl⟩
  | some ancestor => exact ⟨[(⟨.right, ancestor⟩, index), (⟨.left, index⟩, node)], rfl⟩

/-- A token joins its group by one link or two. -/
theorem exists_links_of_join {previous index : Fin count}
    (joined : table.join previous index = some next) :
    ∃ links, next = table.fillAll (operatorFillings links) := by
  rw [join] at joined
  by_cases tighter : (tokens.get index).TighterThan (tokens.get previous)
  · rw [if_pos tighter] at joined
    exact ⟨[(⟨.right, previous⟩, index)], (Option.some.inj joined).symm⟩
  · rw [if_neg tighter] at joined
    obtain ⟨top, -, adopted⟩ := Option.map_eq_some_iff.1 joined
    rw [← adopted]
    exact table.exists_links_adopt index top

/-- A row of links after a row of links is one row of links. -/
theorem fillAll_operatorFillings_append (first second : List (Place count × Fin count)) :
    (table.fillAll (operatorFillings first)).fillAll (operatorFillings second) =
      table.fillAll (operatorFillings (first ++ second)) := by
  rw [← fillAll_append]
  exact congrArg table.fillAll List.map_append.symm

theorem exists_links_of_joinAll {latest rest : List (Fin count)}
    (ends : joinAll latest table rest = some next) :
    ∃ links, next = table.fillAll (operatorFillings links) := by
  induction rest generalizing latest table with
  | nil => exact ⟨[], (Option.some.inj ends).symm⟩
  | cons index rest ih =>
      rw [joinAll] at ends
      cases found : previous? tokens index latest with
      | none =>
          simp only [found] at ends
          exact ih ends
      | some previous =>
          simp only [found] at ends
          cases joined : table.join previous index with
          | none =>
              simp only [joined] at ends
              cases ends
          | some middle =>
              simp only [joined] at ends
              obtain ⟨first, one⟩ := exists_links_of_join joined
              obtain ⟨second, other⟩ := ih ends
              rw [one, fillAll_operatorFillings_append] at other
              exact ⟨first ++ second, other⟩

/-- Over any table the pass over the groups only makes links. -/
theorem exists_links_of_linkWithinGroups (linked : table.linkWithinGroups = some next) :
    ∃ links, next = table.fillAll (operatorFillings links) :=
  exists_links_of_joinAll linked

/-- Every operation fills a row of slots. -/
theorem exists_fillings_of_perform {operation : Operation count}
    (performed : table.perform operation = some next) :
    ∃ fillings, next = table.fillAll fillings := by
  cases operation with
  | linkWithinGroups =>
      obtain ⟨links, run⟩ := exists_links_of_linkWithinGroups performed
      exact ⟨_, run⟩
  | linkBetweenGroups =>
      obtain ⟨links, adopts⟩ := exists_adopts_linkGroups table (Place.all count)
      rw [← linkBetweenGroups_eq, Option.some.inj performed] at adopts
      exact ⟨_, adopts.run⟩
  | attachOperands operands =>
      have filled := (Option.some.inj performed).symm
      rw [attachOperands_eq, storeAll_eq_fillAll] at filled
      exact ⟨_, filled⟩
  | fill place child => exact ⟨[(place, child)], (Option.some.inj performed).symm⟩

/-- Every run of operations fills one row of slots. -/
theorem exists_fillings_of_performAll {operations : List (Operation count)}
    (performed : table.performAll operations = some next) :
    ∃ fillings, next = table.fillAll fillings := by
  induction operations generalizing table with
  | nil => exact ⟨[], (Option.some.inj performed).symm⟩
  | cons operation rest ih =>
      rw [performAll, List.foldlM_cons] at performed
      obtain ⟨middle, first, later⟩ := Option.bind_eq_some_iff.1 performed
      obtain ⟨early, one⟩ := exists_fillings_of_perform first
      obtain ⟨late, other⟩ := ih later
      rw [one, ← fillAll_append] at other
      exact ⟨early ++ late, other⟩

theorem mem_roots_iff {index : Fin count} : index ∈ table.roots ↔ table.isFree index := by
  simp [roots]

theorem isSome_parent_iff {index : Fin count} :
    (table.parent.get index).isSome ↔ ¬ table.isFree index := by
  simp [isFree, Option.isSome_iff_ne_none]

/-- Fillings make no operator free. -/
theorem roots_fillAll_sublist (table : LinkTable tokens)
    (fillings : List (Place count × Child count)) :
    (table.fillAll fillings).roots.Sublist table.roots := by
  apply List.monotone_filter_right
  intro index free
  exact (isFree_fillAll_iff.1 free).2

/-- In a table that is filled from a fresh one every operator in a slot has a parent. -/
theorem not_isFree_of_slot {fillings : List (Place count × Child count)} {place : Place count}
    {index : Fin count}
    (held : ((fresh tokens).fillAll fillings).slot place = some (.operator index)) :
    ¬ ((fresh tokens).fillAll fillings).isFree index := by
  intro free
  have outside := (isFree_fillAll_iff.1 free).1
  rcases mem_of_slot_fillAll held with filled | old
  · exact outside filled
  · rw [slot_fresh] at old
    cases old

/-- The root is a free operator. -/
theorem mem_roots_of_root {index : Fin count} (found : table.root = .ok index) :
    index ∈ table.roots := by
  rw [root] at found
  split at found
  · rename_i only single
    rw [single, Except.ok.inj found]
    exact List.mem_singleton_self index
  · cases found

/-- The fault of a table without a root lists the free operators. -/
theorem eq_of_root_error {fault : Fault} (failed : table.root = .error fault) :
    fault = .whole (.rootCount (table.roots.map fun index => (index.val : Int))) := by
  rw [root] at failed
  split at failed
  · cases failed
  · exact (Except.error.inj failed).symm

/-- In every table that operations reach from a fresh one, an operator in a slot has a parent. Later
operations take no parent away and empty no slot, so the free operators only become fewer, and
neither the root nor an operator that is listed for want of a root stands in a slot. -/
theorem links_persist {before after : List (Operation count)} {table later : LinkTable tokens}
    (reached : (fresh tokens).performAll before = some table)
    (continued : table.performAll after = some later) :
    (∀ place index, table.slot place = some (.operator index) →
        (table.parent.get index).isSome) ∧
      (∀ index, (table.parent.get index).isSome → (later.parent.get index).isSome) ∧
      (∀ place, (table.slot place).isSome → (later.slot place).isSome) ∧
      later.roots.Sublist table.roots ∧
      (∀ root, table.root = .ok root → ∀ place, table.slot place ≠ some (.operator root)) ∧
      ∀ fault, table.root = .error fault → ∃ listed : List (Fin count),
        fault = .whole (.rootCount (listed.map fun index => (index.val : Int))) ∧
          ∀ index ∈ listed, ∀ place, table.slot place ≠ some (.operator index) := by
  obtain ⟨early, rfl⟩ := exists_fillings_of_performAll reached
  obtain ⟨late, rfl⟩ := exists_fillings_of_performAll continued
  have outside (index : Fin count) (free : index ∈ ((fresh tokens).fillAll early).roots)
      (place : Place count) :
      ((fresh tokens).fillAll early).slot place ≠ some (.operator index) :=
    fun held => not_isFree_of_slot held (mem_roots_iff.1 free)
  refine ⟨?_, ?_, ?_, roots_fillAll_sublist _ late, ?_, ?_⟩
  · intro place index held
    exact isSome_parent_iff.2 (not_isFree_of_slot held)
  · intro index parent
    rw [isSome_parent_iff] at parent ⊢
    exact fun free => parent (isFree_fillAll_iff.1 free).2
  · intro place filled
    rw [Option.isSome_iff_ne_none] at filled ⊢
    exact fun empty => filled (slot_fillAll_eq_none_iff.1 empty).2
  · intro root found
    exact outside root (mem_roots_of_root found)
  · intro fault failed
    exact ⟨_, eq_of_root_error failed, outside⟩

/-- The third operator loses its only slot to the second one but keeps its parent, and operands are
missing. The second operator then becomes a child of its own, and the pass over the groups closes
another circle, so no operator is free in the end. -/
theorem links_persist_overwritten :
    let tokens : Vector Token 3 :=
      #v[.ofOperator .add 0 1, .ofOperator .multiply 0 3, .ofOperator .subtract 0 5]
    let before : List (Operation 3) := [.fill ⟨.left, 0⟩ (.operator 2),
      .fill ⟨.left, 0⟩ (.operator 1), .attachOperands "A".toList]
    let after : List (Operation 3) := [.fill ⟨.right, 1⟩ (.operator 1), .linkWithinGroups,
      .linkBetweenGroups]
    ∃ table later, (fresh tokens).performAll before = some table ∧
      table.performAll after = some later ∧
      table.left = #v[some (.operator 1), none, none] ∧ table.parent = #v[none, some 0, some 0] ∧
      (∀ place, table.slot place ≠ some (.operator 0)) ∧
      later.root = .error (.whole (.rootCount [])) ∧ (later.parent.get 2).isSome := by
  intro tokens before after
  obtain ⟨table, reached⟩ := Option.isSome_iff_exists.1
    (show ((fresh tokens).performAll before).isSome by decide)
  have links : ((fresh tokens).performAll before).map (fun table =>
      (table.left, table.parent, table.roots)) =
        some (#v[some (.operator 1), none, none], #v[none, some 0, some 0], [0]) := by decide
  have rootless : ((fresh tokens).performAll before).bind (fun table =>
      (table.performAll after).map LinkTable.roots) = some [] := by decide
  rw [reached] at links rootless
  obtain ⟨later, continued, empty⟩ := Option.map_eq_some_iff.1 rootless
  obtain ⟨-, kept, -, -, rooted, -⟩ := links_persist reached continued
  obtain ⟨left, rest⟩ := Prod.mk.inj (Option.some.inj links)
  obtain ⟨parent, single⟩ := Prod.mk.inj rest
  refine ⟨table, later, reached, continued, left, parent, ?_, ?_, ?_⟩
  · apply rooted
    rw [root, single]
  · rw [root, empty]
    rfl
  · apply kept
    rw [parent]
    decide

end LinkTable

end PolishNotation
