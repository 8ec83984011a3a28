import PolishNotation.Proofs.Links.Operands

namespace PolishNotation

variable {count : Nat} {tokens : Vector Token count}

namespace LinkTable

/-- The table is filled with the operands as far as both last. The fault says which side runs out
first: an empty slot without an operand is named with its side and the symbol of its operator, and
operands without a slot are listed. -/
structure Attaches (table : LinkTable tokens) (operands : Text) (filled : LinkTable tokens)
    (fault : Option Fault) : Prop where
  stored : ∀ (index : Nat) (place : Place count) (operand : Char),
    table.emptyPlaces[index]? = some place → operands[index]? = some operand →
      filled.slot place = some (.operand [operand])
  kept : ∀ place, place ∉ table.emptyPlaces.take operands.length →
    filled.slot place = table.slot place
  parent : filled.parent = table.parent
  events : filled.events.toList = table.events.toList ++
    (table.emptyPlaces.zip operands).map fun entry =>
      .attached [entry.2] entry.1.side (tokens.get entry.1.index)
  lines : filled.events.toList.map Event.line = table.events.toList.map Event.line ++
    (table.emptyPlaces.zip operands).map fun entry =>
      "intopo.tree: Attached operand '".toList ++ [entry.2] ++ "' as ".toList ++
        entry.1.side.text ++ " child of ".toList ++ (tokens.get entry.1.index).text
  succeeds : fault = none ↔ operands.length = table.emptyPlaces.length
  missing : operands.length < table.emptyPlaces.length →
    ∃ place found, table.emptyPlaces[operands.length]? = some place ∧ fault = some found ∧
      found.kind = .ambiguous ∧
      found.position = Token.known? (tokens.get place.index).position ∧
      found.message = messageAt found.position ("Ran out of operands for the ".toList ++
        place.side.text ++ " side of operator '".toList ++
          [(tokens.get place.index).operator.symbol] ++ "'".toList)
  unused : table.emptyPlaces.length < operands.length →
    (∀ place, (filled.slot place).isSome) ∧ ∃ found, fault = some found ∧
      found.kind = .ambiguous ∧ found.position = none ∧
      found.message = "Operands '".toList ++ operands.drop table.emptyPlaces.length ++
        "' are not used by any operator".toList

variable (table : LinkTable tokens) {operands : Text}

/-- Every stored operand is recorded in its turn. -/
theorem events_storeAll (places : List (Place count)) (operands : Text) :
    (table.storeAll (places.zip operands)).events.toList = table.events.toList ++
      (places.zip operands).map fun entry =>
        .attached [entry.2] entry.1.side (tokens.get entry.1.index) := by
  rw [storeAll_eq_fillAll, events_fillAll, operandFillings, List.map_map]
  rfl

/-- With an operand for every empty slot no slot stays empty. -/
theorem isSome_slot_storeAll (enough : table.emptyPlaces.length ≤ operands.length)
    (place : Place count) :
    ((table.storeAll (table.emptyPlaces.zip operands)).slot place).isSome := by
  cases content : table.slot place with
  | some child =>
      rw [slot_storeAll_of_not_mem, content]
      · rfl
      · intro member
        cases content.symm.trans (mem_emptyPlaces_iff.1 (List.mem_of_mem_take member))
  | none =>
      obtain ⟨index, placed⟩ := List.getElem?_of_mem (mem_emptyPlaces_iff.2 content)
      have inside := (List.getElem?_eq_some_iff.1 placed).1
      have given := List.getElem?_eq_getElem (show index < operands.length by omega)
      rw [slot_storeAll_of_getElem? table table.nodup_emptyPlaces placed given]
      rfl

/-- Whatever the table holds, the operands go into its empty slots, and the fault tells what is
missing or left over. -/
theorem attaches_attachOperands (table : LinkTable tokens) (operands : Text) :
    table.Attaches operands (table.attachOperands operands).1
      (table.attachOperands operands).2 := by
  rw [attachOperands_eq]
  constructor
  · intro index place operand placed given
    exact slot_storeAll_of_getElem? table table.nodup_emptyPlaces placed given
  · intro place outside
    exact slot_storeAll_of_not_mem table outside
  · exact parent_storeAll table _
  · exact events_storeAll table table.emptyPlaces operands
  · rw [events_storeAll, List.map_append, Event.map_line_attached]
  · exact operandFault_eq_none
  · intro few
    have placed := List.getElem?_eq_getElem few
    exact ⟨_, _, placed, operandFault_of_getElem? placed, rfl, rfl, rfl⟩
  · intro more
    refine ⟨isSome_slot_storeAll table (Nat.le_of_lt more), _, operandFault_of_lt more, ?_⟩
    exact ⟨rfl, rfl, rfl⟩

/-- In this table the second operator stands on the left of the first one but has no parent, and its
position is unknown. Two operands leave its right slot empty. -/
theorem attaches_attachOperands_few :
    let tokens : Vector Token 2 :=
      #v[.ofOperator .add 0 1, .ofOperator .multiply 1 Token.unknownPosition]
    let table : LinkTable tokens :=
      ⟨#v[some (.operator 1), none], #v[none, none], #v[none, none], #[]⟩
    let filled := (table.attachOperands "AB".toList).1
    filled.slot ⟨.left, 1⟩ = some (.operand "B".toList) ∧
      filled.slot ⟨.left, 0⟩ = some (.operator 1) ∧ filled.parent = #v[none, none] ∧
      ∃ fault, (table.attachOperands "AB".toList).2 = some fault ∧
        fault.message = "Ran out of operands for the right side of operator '*'".toList := by
  intro tokens table filled
  have attaches := attaches_attachOperands table "AB".toList
  obtain ⟨place, fault, placed, found, -, position, message⟩ := attaches.missing (by decide)
  have last : table.emptyPlaces["AB".toList.length]? = some ⟨.right, 1⟩ := by decide
  cases last.symm.trans placed
  rw [position] at message
  exact ⟨attaches.stored 1 ⟨.left, 1⟩ 'B' (by decide) (by decide),
    attaches.kept ⟨.left, 0⟩ (by decide), attaches.parent, fault, found,
    message.trans (by decide)⟩

end LinkTable

end PolishNotation
