import PolishNotation.Proofs.Links.Between

namespace PolishNotation

variable {count : Nat} {tokens : Vector Token count}

namespace LinkTable

/-- Two tables have the same links if their slots and their parents agree. The records of the links
may differ in their order. -/
structure SameLinks (first second : LinkTable tokens) : Prop where
  left : first.left = second.left
  right : first.right = second.right
  parent : first.parent = second.parent

/-- Entries that agree at every index make the same vector. -/
theorem eq_of_get {Entry : Type} {first second : Vector Entry count}
    (same : ∀ index : Fin count, first.get index = second.get index) : first = second := by
  apply Vector.ext
  intro index inside
  exact same ⟨index, inside⟩

/-- A relation that a table shows determines its links. -/
theorem Shows.sameLinks {linked : Place count → Fin count → Prop} {first second : LinkTable tokens}
    (one : first.Shows linked) (other : second.Shows linked) : first.SameLinks second := by
  have slots (place : Place count) : first.slot place = second.slot place := by
    apply Option.ext
    intro child
    rw [one.slot_iff, other.slot_iff]
  constructor
  · apply eq_of_get
    intro index
    exact slots ⟨.left, index⟩
  · apply eq_of_get
    intro index
    exact slots ⟨.right, index⟩
  · apply eq_of_get
    intro index
    apply Option.ext
    intro parent
    rw [one.parent_iff, other.parent_iff]

/-- The order of the visits and repeated visits do not matter for what is linked around. -/
theorem linkedAround_congr {first second : List (Place count)}
    (same : ∀ place, place ∈ first ↔ place ∈ second) {place : Place count} {index : Fin count} :
    LinkedAround tokens first place index ↔ LinkedAround tokens second place index := by
  rw [LinkedAround, LinkedAround, same]

/-- After the links inside the groups, two sequences of visits to the same places lead to the same
links. -/
theorem sameLinks_linkGroups {table : LinkTable tokens}
    (within : (fresh tokens).linkWithinGroups = some table) {first second : List (Place count)}
    (same : ∀ place, place ∈ first ↔ place ∈ second) :
    (table.linkGroups first).SameLinks (table.linkGroups second) := by
  obtain ⟨found, linked, shows⟩ := exists_linkWithinGroups tokens
  cases linked.symm.trans within
  have start : table.Shows (LinkedAround tokens []) :=
    shows.congr fun place index => linkedAround_nil.symm
  have visited (places : List (Place count)) :
      (table.linkGroups places).Shows (LinkedAround tokens places) :=
    (shows_linkGroups start places).congr fun place index =>
      linkedAround_congr fun place => by simp
  exact (visited first).sameLinks
    ((visited second).congr fun place index => linkedAround_congr fun place => (same place).symm)

/-- The pass inside the groups always ends, and every order in which the places are visited once leads
to the links of the pass in the common order. -/
theorem linkGroups_of_perm (tokens : Vector Token count) :
    ∃ table, (fresh tokens).linkWithinGroups = some table ∧
      ∀ places : List (Place count), places.Perm (Place.all count) →
        (table.linkGroups places).left = table.linkBetweenGroups.left ∧
          (table.linkGroups places).right = table.linkBetweenGroups.right ∧
            (table.linkGroups places).parent = table.linkBetweenGroups.parent := by
  obtain ⟨table, within, -⟩ := exists_linkWithinGroups tokens
  refine ⟨table, within, fun places order => ?_⟩
  rw [linkBetweenGroups_eq]
  have same := sameLinks_linkGroups within fun place => order.mem_iff
  exact ⟨same.left, same.right, same.parent⟩

/-- The tokens of `(A+B)*((C-D)/E)` are linked from right to left as they are from left to right. -/
theorem linkGroups_of_perm_reversed :
    let tokens : Vector Token 4 := #v[.ofOperator .add 1 2, .ofOperator .multiply 0 5,
      .ofOperator .subtract 2 9, .ofOperator .divide 1 12]
    (Place.all 4).reverse.Perm (Place.all 4) ∧
      ∃ table, (fresh tokens).linkWithinGroups = some table ∧
        (table.linkGroups (Place.all 4).reverse).left = table.linkBetweenGroups.left ∧
          (table.linkGroups (Place.all 4).reverse).right = table.linkBetweenGroups.right ∧
            (table.linkGroups (Place.all 4).reverse).parent =
              #v[some 1, none, some 3, some 1] := by
  intro tokens
  have order := (Place.all 4).reverse_perm
  obtain ⟨table, within, same⟩ := linkGroups_of_perm tokens
  obtain ⟨left, right, parent⟩ := same _ order
  have linked : (fresh tokens).linkWithinGroups.map (fun table => table.linkBetweenGroups.parent) =
      some #v[some 1, none, some 3, some 1] := by decide
  rw [within] at linked
  exact ⟨order, table, within, left, right, parent.trans (Option.some.inj linked)⟩

end LinkTable

end PolishNotation
