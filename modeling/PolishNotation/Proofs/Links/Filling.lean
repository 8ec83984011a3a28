import PolishNotation.Links.Table

namespace PolishNotation

namespace LinkTable

variable {count : Nat} {tokens : Vector Token count} {table : LinkTable tokens}

theorem fillAll_append (table : LinkTable tokens)
    (first second : List (Place count × Child count)) :
    table.fillAll (first ++ second) = (table.fillAll first).fillAll second := by
  rw [fillAll, List.foldl_append]
  rfl

/-- A slot that is not filled keeps its content. -/
theorem slot_fillAll_of_not_mem {fillings : List (Place count × Child count)}
    {place : Place count} (outside : place ∉ fillings.map Prod.fst) :
    (table.fillAll fillings).slot place = table.slot place := by
  induction fillings generalizing table with
  | nil => rfl
  | cons filling rest ih =>
      rw [List.map_cons, List.mem_cons, not_or] at outside
      apply (ih outside.2).trans
      rw [slot_fill, if_neg outside.1]

/-- A slot that is filled once holds its child. -/
theorem slot_fillAll_of_mem {fillings : List (Place count × Child count)}
    (distinct : (fillings.map Prod.fst).Nodup) {place : Place count} {child : Child count}
    (member : (place, child) ∈ fillings) :
    (table.fillAll fillings).slot place = some child := by
  induction fillings generalizing table with
  | nil => cases member
  | cons filling rest ih =>
      obtain ⟨fresh, distinctRest⟩ := List.nodup_cons.1 distinct
      cases member with
      | head =>
          apply (slot_fillAll_of_not_mem fresh).trans
          rw [slot_fill, if_pos rfl]
      | tail _ member => exact ih distinctRest member

/-- A slot holds in the end what a filling put into it or what it held before. -/
theorem mem_of_slot_fillAll {fillings : List (Place count × Child count)} {place : Place count}
    {child : Child count} (held : (table.fillAll fillings).slot place = some child) :
    child ∈ fillings.map Prod.snd ∨ table.slot place = some child := by
  induction fillings generalizing table with
  | nil => exact .inr held
  | cons filling rest ih =>
      rw [List.map_cons, List.mem_cons]
      rcases ih held with later | now
      · exact .inl (.inr later)
      · rw [slot_fill] at now
        by_cases same : place = filling.1
        · rw [if_pos same] at now
          exact .inl (.inl (Option.some.inj now).symm)
        · rw [if_neg same] at now
          exact .inr now

/-- A slot is empty in the end if it was empty and is not filled. -/
theorem slot_fillAll_eq_none_iff {fillings : List (Place count × Child count)}
    {place : Place count} :
    (table.fillAll fillings).slot place = none ↔
      place ∉ fillings.map Prod.fst ∧ table.slot place = none := by
  induction fillings generalizing table with
  | nil => simp [fillAll]
  | cons filling rest ih =>
      change ((table.fill filling.1 filling.2).fillAll rest).slot place = none ↔ _
      rw [ih, slot_fill, List.map_cons, List.mem_cons, not_or]
      by_cases same : place = filling.1
      · simp [same]
      · simp [same]

/-- An operator that is not put into a slot keeps its parent. -/
theorem parent_fillAll_of_not_mem {fillings : List (Place count × Child count)} {index : Fin count}
    (outside : .operator index ∉ fillings.map Prod.snd) :
    (table.fillAll fillings).parent.get index = table.parent.get index := by
  induction fillings generalizing table with
  | nil => rfl
  | cons filling rest ih =>
      rw [List.map_cons, List.mem_cons, not_or] at outside
      apply (ih outside.2).trans
      obtain ⟨place, child⟩ := filling
      cases child with
      | operand text => rfl
      | operator other =>
          rw [parent_fill_operator, if_neg]
          intro same
          exact outside.1 (congrArg Child.operator same)

/-- An operator is free in the end if it was free and is not put into a slot. -/
theorem isFree_fillAll_iff {fillings : List (Place count × Child count)} {index : Fin count} :
    (table.fillAll fillings).isFree index ↔
      .operator index ∉ fillings.map Prod.snd ∧ table.isFree index := by
  induction fillings generalizing table with
  | nil => simp [fillAll]
  | cons filling rest ih =>
      change ((table.fill filling.1 filling.2).fillAll rest).isFree index ↔ _
      rw [ih, List.map_cons, List.mem_cons, not_or]
      obtain ⟨place, child⟩ := filling
      cases child with
      | operand text => simp [isFree, parent_fill_operand]
      | operator other =>
          by_cases same : index = other
          · simp [isFree, parent_fill_operator, same]
          · simp [isFree, parent_fill_operator, same]

/-- Every filling is recorded in its turn. -/
theorem events_fillAll (table : LinkTable tokens) (fillings : List (Place count × Child count)) :
    (table.fillAll fillings).events.toList =
      table.events.toList ++ fillings.map fun filling => fillEvent tokens filling.1 filling.2 := by
  induction fillings generalizing table with
  | nil => simp [fillAll]
  | cons filling rest ih =>
      apply (ih (table.fill filling.1 filling.2)).trans
      simp [events_fill]

end LinkTable

end PolishNotation
