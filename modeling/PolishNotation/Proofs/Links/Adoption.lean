import PolishNotation.Proofs.Links.Between
import PolishNotation.Proofs.Links.Filling

namespace PolishNotation

variable {count : Nat} {tokens : Vector Token count}

namespace LinkTable

/-- Every link puts an operator into its place. -/
def operatorFillings (links : List (Place count × Fin count)) : List (Place count × Child count) :=
  links.map fun link => (link.1, .operator link.2)

theorem map_fst_operatorFillings (links : List (Place count × Fin count)) :
    (operatorFillings links).map Prod.fst = links.map Prod.fst := by
  rw [operatorFillings, List.map_map]
  rfl

theorem operator_mem_operatorFillings_iff {links : List (Place count × Fin count)}
    {index : Fin count} :
    .operator index ∈ (operatorFillings links).map Prod.snd ↔ index ∈ links.map Prod.snd := by
  simp [operatorFillings]

/-- The second table is the first one with further links in their order. Every link fills an empty
slot with a free operator. No slot is filled twice and no operator is adopted twice. -/
structure Adopts (table next : LinkTable tokens) (links : List (Place count × Fin count)) :
    Prop where
  run : next = table.fillAll (operatorFillings links)
  empty : ∀ link ∈ links, table.slot link.1 = none
  free : ∀ link ∈ links, table.isFree link.2
  places : (links.map Prod.fst).Nodup
  children : (links.map Prod.snd).Nodup

namespace Adopts

variable {table middle next : LinkTable tokens}
  {first second links : List (Place count × Fin count)}

theorem nil (table : LinkTable tokens) : table.Adopts table [] :=
  ⟨rfl, nofun, nofun, .nil, .nil⟩

/-- One link into an empty slot adopts a free operator. -/
theorem fill {place : Place count} {index : Fin count} (empty : table.slot place = none)
    (free : table.isFree index) :
    table.Adopts (table.fill place (.operator index)) [(place, index)] where
  run := rfl
  empty link member := by rwa [List.mem_singleton.1 member]
  free link member := by rwa [List.mem_singleton.1 member]
  places := List.nodup_singleton _
  children := List.nodup_singleton _

/-- A slot is empty afterwards if it was empty and no link fills it. -/
theorem slot_eq_none_iff (adopts : table.Adopts next links) {place : Place count} :
    next.slot place = none ↔ place ∉ links.map Prod.fst ∧ table.slot place = none := by
  rw [adopts.run, slot_fillAll_eq_none_iff, map_fst_operatorFillings]

/-- An operator is free afterwards if it was free and no link adopts it. -/
theorem isFree_iff (adopts : table.Adopts next links) {index : Fin count} :
    next.isFree index ↔ index ∉ links.map Prod.snd ∧ table.isFree index := by
  rw [adopts.run, isFree_fillAll_iff, operator_mem_operatorFillings_iff]

/-- A filled slot keeps its content. -/
theorem slot_eq (adopts : table.Adopts next links) {place : Place count} {child : Child count}
    (held : table.slot place = some child) : next.slot place = some child := by
  rw [adopts.run, slot_fillAll_of_not_mem, held]
  rw [map_fst_operatorFillings]
  intro member
  obtain ⟨link, inLinks, rfl⟩ := List.mem_map.1 member
  rw [adopts.empty link inLinks] at held
  cases held

/-- An operator with a parent keeps it. -/
theorem parent_eq (adopts : table.Adopts next links) {index parent : Fin count}
    (held : table.parent.get index = some parent) : next.parent.get index = some parent := by
  rw [adopts.run, parent_fillAll_of_not_mem, held]
  rw [operator_mem_operatorFillings_iff]
  intro member
  obtain ⟨link, inLinks, rfl⟩ := List.mem_map.1 member
  have free := adopts.free link inLinks
  simp [isFree, held] at free

/-- Further links fill other slots and adopt other operators. -/
theorem append (one : table.Adopts middle first) (other : middle.Adopts next second) :
    table.Adopts next (first ++ second) where
  run := by
    rw [other.run, one.run, ← fillAll_append]
    exact congrArg table.fillAll List.map_append.symm
  empty link member := by
    rcases List.mem_append.1 member with early | late
    · exact one.empty link early
    · exact (one.slot_eq_none_iff.1 (other.empty link late)).2
  free link member := by
    rcases List.mem_append.1 member with early | late
    · exact one.free link early
    · exact (one.isFree_iff.1 (other.free link late)).2
  places := by
    rw [List.map_append, List.nodup_append']
    refine ⟨one.places, other.places, ?_⟩
    intro place early late
    obtain ⟨link, inSecond, rfl⟩ := List.mem_map.1 late
    exact (one.slot_eq_none_iff.1 (other.empty link inSecond)).1 early
  children := by
    rw [List.map_append, List.nodup_append']
    refine ⟨one.children, other.children, ?_⟩
    intro index early late
    obtain ⟨link, inSecond, rfl⟩ := List.mem_map.1 late
    exact (one.isFree_iff.1 (other.free link inSecond)).1 early

/-- The record shows every link in its turn. -/
theorem events_eq (adopts : table.Adopts next links) :
    next.events.toList = table.events.toList ++ links.map fun link =>
      .linked (tokens.get link.2) link.1.side (tokens.get link.1.index) := by
  rw [adopts.run, events_fillAll, operatorFillings, List.map_map]
  rfl

end Adopts

variable {table next : LinkTable tokens} {place : Place count}
  {links : List (Place count × Fin count)}

/-- With fewer free operators the search finds nothing where it found nothing before. -/
theorem groupRoot?_eq_none_of_isFree {index : Fin count} {candidates : List (Fin count)}
    (fewer : ∀ other, next.isFree other → table.isFree other)
    (missing : table.groupRoot? index candidates = none) :
    next.groupRoot? index candidates = none := by
  rw [groupRoot?_eq_none_iff, freeRun, List.filter_eq_nil_iff] at missing ⊢
  intro other inRun free
  exact missing other inRun (fewer other free)

/-- A visit makes at most one link. -/
theorem exists_adopts_linkGroup (table : LinkTable tokens) (place : Place count)
    (candidates : List (Fin count)) :
    ∃ links, table.Adopts (table.linkGroup place candidates) links := by
  rw [linkGroup]
  cases content : table.slot place with
  | some child => exact ⟨[], .nil table⟩
  | none =>
      cases found : table.groupRoot? place.index candidates with
      | none => exact ⟨[], .nil table⟩
      | some root => exact ⟨[(place, root)], .fill content (isFree_of_groupRoot? found)⟩

theorem exists_adopts_linkGroups (table : LinkTable tokens) (places : List (Place count)) :
    ∃ links, table.Adopts (table.linkGroups places) links := by
  induction places generalizing table with
  | nil => exact ⟨[], .nil table⟩
  | cons place rest ih =>
      obtain ⟨first, one⟩ := exists_adopts_linkGroup table place (candidates place)
      obtain ⟨second, other⟩ := ih (table.linkGroup place (candidates place))
      exact ⟨first ++ second, one.append other⟩

/-- A place is settled if its slot is filled or the search for it finds nothing. -/
def IsSettled (table : LinkTable tokens) (place : Place count) : Prop :=
  table.slot place = none → table.groupRoot? place.index (candidates place) = none

/-- A visit changes nothing at a settled place. -/
theorem linkGroup_of_isSettled (settled : table.IsSettled place) :
    table.linkGroup place (candidates place) = table := by
  rw [linkGroup]
  cases content : table.slot place with
  | some child => rfl
  | none => simp only [settled content]

/-- A visit settles its place. -/
theorem isSettled_linkGroup (table : LinkTable tokens) (place : Place count) :
    (table.linkGroup place (candidates place)).IsSettled place := by
  rw [linkGroup]
  cases content : table.slot place with
  | some child =>
      intro empty
      cases content.symm.trans empty
  | none =>
      cases found : table.groupRoot? place.index (candidates place) with
      | none => exact fun _ => found
      | some root =>
          intro empty
          rw [slot_fill, if_pos rfl] at empty
          cases empty

/-- Further links keep a settled place settled. -/
theorem IsSettled.adopts (settled : table.IsSettled place) (adopts : table.Adopts next links) :
    next.IsSettled place := by
  intro empty
  have before := settled (adopts.slot_eq_none_iff.1 empty).2
  exact groupRoot?_eq_none_of_isFree (fun other free => (adopts.isFree_iff.1 free).2) before

/-- The visits settle all their places. -/
theorem isSettled_linkGroups (table : LinkTable tokens) (places : List (Place count)) :
    ∀ place ∈ places, (table.linkGroups places).IsSettled place := by
  induction places generalizing table with
  | nil => nofun
  | cons head rest ih =>
      intro place member
      cases member with
      | head =>
          obtain ⟨links, adopts⟩ :=
            exists_adopts_linkGroups (table.linkGroup head (candidates head)) rest
          exact (isSettled_linkGroup table head).adopts adopts
      | tail _ member => exact ih (table.linkGroup head (candidates head)) place member

/-- Visits to settled places change nothing. -/
theorem linkGroups_of_isSettled {places : List (Place count)}
    (settled : ∀ place ∈ places, table.IsSettled place) : table.linkGroups places = table := by
  induction places with
  | nil => rfl
  | cons head rest ih =>
      obtain ⟨first, others⟩ := List.forall_mem_cons.1 settled
      change (table.linkGroup head (candidates head)).linkGroups rest = table
      rw [linkGroup_of_isSettled first]
      exact ih others

/-- Over any table the pass only fills empty slots with free operators, each at most once. It leaves
every filled slot and every parent as they are, and a second pass changes and records nothing. -/
theorem linkBetweenGroups_settles (table : LinkTable tokens) :
    (∃ links, table.Adopts table.linkBetweenGroups links ∧
        table.linkBetweenGroups.events.toList = table.events.toList ++ links.map fun link =>
          .linked (tokens.get link.2) link.1.side (tokens.get link.1.index)) ∧
      (∀ place child, table.slot place = some child →
        table.linkBetweenGroups.slot place = some child) ∧
      (∀ index parent, table.parent.get index = some parent →
        table.linkBetweenGroups.parent.get index = some parent) ∧
      table.linkBetweenGroups.linkBetweenGroups = table.linkBetweenGroups := by
  have again : table.linkBetweenGroups.linkBetweenGroups = table.linkBetweenGroups := by
    rw [linkBetweenGroups_eq table, linkBetweenGroups_eq]
    exact linkGroups_of_isSettled (isSettled_linkGroups table (Place.all count))
  obtain ⟨links, adopts⟩ := exists_adopts_linkGroups table (Place.all count)
  rw [← linkBetweenGroups_eq] at adopts
  exact ⟨⟨links, adopts, adopts.events_eq⟩, fun place child => adopts.slot_eq,
    fun index parent => adopts.parent_eq, again⟩

/-- In this table the second operator is its own parent and holds the first one, which has no
parent. The pass still links the third operator to the first one, once. -/
theorem linkBetweenGroups_settles_contradictory :
    let tokens : Vector Token 3 :=
      #v[.ofOperator .add 0 1, .ofOperator .multiply 1 4, .ofOperator .subtract 2 7]
    let table : LinkTable tokens :=
      ⟨#v[none, some (.operator 0), none], #v[none, none, none], #v[none, some 1, none], #[]⟩
    table.linkBetweenGroups.slot ⟨.left, 1⟩ = some (.operator 0) ∧
      table.linkBetweenGroups.parent = #v[none, some 1, some 0] ∧
      table.linkBetweenGroups.linkBetweenGroups = table.linkBetweenGroups := by
  intro tokens table
  obtain ⟨-, slots, -, again⟩ := linkBetweenGroups_settles table
  exact ⟨slots ⟨.left, 1⟩ (.operator 0) (by decide), by decide, again⟩

end LinkTable

end PolishNotation
