import PolishNotation.Proofs.Construction

namespace PolishNotation

/-- The operand in front of the row goes to the left of the first token, and the one behind the row
to the right of the last token. Between two neighbours the operand goes to the later token if the
earlier one outranks it, and to the earlier token otherwise. -/
def operandSlot? (tokens : List Token) : Nat → Option (Side × Token)
  | 0 => tokens[0]?.map (Prod.mk .left)
  | gap + 1 =>
      match tokens[gap]?, tokens[gap + 1]? with
      | some previous, some next =>
          if previous.Outranks next then some (.left, next) else some (.right, previous)
      | some previous, none => some (.right, previous)
      | none, _ => none

variable {count : Nat} {tokens : Vector Token count}

/-- A neighbour on the left that is not below a token outranks it. -/
theorem not_above_iff_outranks {previous index : Fin count} (before : previous < index) :
    ¬ Above tokens index previous ↔ (tokens.get previous).Outranks (tokens.get index) := by
  constructor
  · intro notAbove
    by_contra notOutranks
    exact notAbove (.inr ⟨before, notOutranks⟩)
  · intro outranks above
    exact above.asymm (.inl outranks)

/-- A neighbour on the right that is not below a token is not outranked by it. -/
theorem above_iff_outranks {index next : Fin count} (before : index < next) :
    Above tokens index next ↔ (tokens.get index).Outranks (tokens.get next) :=
  ⟨fun above => above.resolve_right fun late => Fin.lt_asymm before late.1, .inl⟩

namespace LinkTable

variable {table : LinkTable tokens}

/-- An empty slot takes the operand of its gap. -/
theorem operandSlot?_gap (shows : table.Shows (Heads tokens count)) {place : Place count}
    (empty : (table.slot place).isNone) :
    operandSlot? tokens.toList place.gap = some (place.side, tokens.get place.index) := by
  rw [slot_isNone_iff shows] at empty
  obtain ⟨side, index⟩ := place
  have found := getElem?_toList tokens index
  cases side with
  | left =>
      obtain ⟨index, inside⟩ := index
      cases index with
      | zero =>
          rw [Place.gap, operandSlot?, found]
          rfl
      | succ previous =>
          have near : (⟨previous, by omega⟩ : Fin count).val + 1 =
              (⟨previous + 1, inside⟩ : Fin count).val := rfl
          have foundPrevious := getElem?_toList tokens ⟨previous, by omega⟩
          rw [exists_heads_left_iff near, not_above_iff_outranks (by simp)] at empty
          rw [Place.gap, operandSlot?, foundPrevious, found]
          exact if_pos empty
  | right =>
      rw [Place.gap, operandSlot?, found]
      by_cases last : index.val + 1 = count
      · have ends : tokens.toList[index.val + 1]? = none :=
          List.getElem?_eq_none (by rw [Vector.length_toList]; omega)
        rw [ends]
      · obtain ⟨next, near⟩ : ∃ next : Fin count, index.val + 1 = next.val :=
          ⟨⟨index.val + 1, by omega⟩, rfl⟩
        rw [exists_heads_right_iff near, above_iff_outranks (by omega)] at empty
        rw [near, getElem?_toList]
        exact if_neg empty

/-- With too many operands the rest is not used. -/
theorem result_complete_of_lt (shows : table.Shows (Heads tokens count)) (positive : 0 < count)
    {operands : Text} (more : count + 1 < operands.length) :
    (table.complete operands).result =
      .error (.whole (.unusedOperands (operands.drop (count + 1)))) := by
  have length := length_emptyPlaces shows positive
  rw [← length] at more ⊢
  exact result_complete_of_operandFault (operandFault_of_lt more)

/-- With too few operands the slot of the next gap stays empty. -/
theorem exists_result_complete_of_le (shows : table.Shows (Heads tokens count))
    (positive : 0 < count) {operands : Text} (few : operands.length ≤ count) :
    ∃ place, operandSlot? tokens.toList operands.length =
        some (place.side, tokens.get place.index) ∧
      (table.complete operands).result = .error (missingOperand tokens place) := by
  have inside : operands.length < table.emptyPlaces.length := by
    rw [length_emptyPlaces shows positive]
    omega
  obtain ⟨place, placed⟩ : ∃ place, table.emptyPlaces[operands.length]? = some place :=
    ⟨_, List.getElem?_eq_getElem inside⟩
  have empty := (List.mem_filter.1 (List.mem_of_getElem? placed)).2
  refine ⟨_, ?_, result_complete_of_operandFault (operandFault_of_getElem? placed)⟩
  rw [← gap_of_getElem?_emptyPlaces shows positive placed]
  exact operandSlot?_gap shows empty

end LinkTable

namespace Expression

/-- Too many operands leave exactly the operands behind the last gap unused. With too few, the fault
names the slot of the first gap without an operand, and has the position of its token if that is
known. -/
theorem tree_of_miscount {tokens : List Token} {operands : Text} (nonempty : tokens ≠ [])
    (wrong : operands.length ≠ tokens.length + 1) :
    ∃ fault, Expression.tree ⟨operands, tokens⟩ = .error fault ∧ fault.kind = .ambiguous ∧
      (tokens.length + 1 < operands.length →
        fault.position = none ∧ fault.message = "Operands '".toList ++
          operands.drop (tokens.length + 1) ++ "' are not used by any operator".toList) ∧
      (operands.length ≤ tokens.length →
        ∃ side token, operandSlot? tokens operands.length = some (side, token) ∧
          fault.position = (if 0 ≤ token.position then some token.position else none) ∧
          fault.message = messageAt fault.position ("Ran out of operands for the ".toList ++
            side.text ++ " side of operator '".toList ++ [token.operator.symbol] ++
              "'".toList)) := by
  obtain ⟨first, rest, rfl⟩ := List.exists_cons_of_ne_nil nonempty
  obtain ⟨table, -, shows, same⟩ := exists_table operands first rest
  rw [same]
  rcases Nat.lt_or_gt_of_ne wrong with few | more
  · have few : operands.length ≤ (first :: rest).length := by omega
    obtain ⟨place, slot, failed⟩ := LinkTable.exists_result_complete_of_le shows (by simp) few
    refine ⟨_, failed, rfl, fun more => by omega, fun _ => ⟨_, _, slot, rfl, rfl⟩⟩
  · have failed := LinkTable.result_complete_of_lt shows (by simp) more
    exact ⟨_, failed, rfl, fun _ => ⟨rfl, rfl⟩, fun few => by omega⟩

/-- The second of these tokens is deeper and has no known position. With one operand its left slot
stays empty, and with five operands two are left. -/
theorem tree_of_miscount_unplaced :
    let tokens : List Token :=
      [.ofOperator .add 0 1, .ofOperator .multiply 1 Token.unknownPosition]
    (∃ fault, Expression.tree ⟨"A".toList, tokens⟩ = .error fault ∧ fault.kind = .ambiguous ∧
        fault.message = "Ran out of operands for the left side of operator '*'".toList) ∧
      ∃ fault, Expression.tree ⟨"ABCDE".toList, tokens⟩ = .error fault ∧ fault.kind = .ambiguous ∧
        fault.message = "Operands 'DE' are not used by any operator".toList := by
  intro tokens
  have nonempty : tokens ≠ [] := by decide
  have few : "A".toList.length ≠ tokens.length + 1 := by decide
  have more : "ABCDE".toList.length ≠ tokens.length + 1 := by decide
  constructor
  · obtain ⟨fault, failed, kind, -, missing⟩ := tree_of_miscount nonempty few
    obtain ⟨side, token, slot, position, message⟩ := missing (by decide)
    cases slot
    rw [position] at message
    exact ⟨fault, failed, kind, message.trans (by decide)⟩
  · obtain ⟨fault, failed, kind, unused, -⟩ := tree_of_miscount nonempty more
    exact ⟨fault, failed, kind, (unused (by decide)).2.trans (by decide)⟩

end Expression

end PolishNotation
