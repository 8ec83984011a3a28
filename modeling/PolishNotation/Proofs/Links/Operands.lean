import Mathlib.Data.List.Nodup
import PolishNotation.Proofs.Links.Between
import PolishNotation.Proofs.Links.Filling

namespace PolishNotation

variable {count : Nat} {tokens : Vector Token count}

namespace LinkTable

/-- The operands go into the places one after the other. -/
def storeAll (table : LinkTable tokens) (stored : List (Place count × Char)) : LinkTable tokens :=
  stored.foldl (fun current entry => current.fill entry.1 (.operand [entry.2])) table

/-- Places and operands that do not agree in their number are a fault. -/
def operandFault (tokens : Vector Token count) : List (Place count) → Text → Option Fault
  | [], [] => none
  | [], operand :: rest => some (.whole (.unusedOperands (operand :: rest)))
  | place :: _, [] => some (missingOperand tokens place)
  | _ :: places, _ :: operands => operandFault tokens places operands

theorem operandFault_eq_none {places : List (Place count)} {operands : Text} :
    operandFault tokens places operands = none ↔ operands.length = places.length := by
  induction places generalizing operands with
  | nil => cases operands <;> simp [operandFault]
  | cons place places ih =>
      cases operands with
      | nil => simp [operandFault]
      | cons operand operands => simp [operandFault, ih]

/-- Operands beyond the last place are not used. -/
theorem operandFault_of_lt {places : List (Place count)} {operands : Text}
    (more : places.length < operands.length) :
    operandFault tokens places operands =
      some (.whole (.unusedOperands (operands.drop places.length))) := by
  induction places generalizing operands with
  | nil =>
      cases operands with
      | nil => exact absurd more (Nat.lt_irrefl 0)
      | cons operand operands => rfl
  | cons place places ih =>
      cases operands with
      | nil => exact absurd more (Nat.not_lt_zero _)
      | cons operand operands => exact ih (Nat.lt_of_succ_lt_succ more)

/-- The first place beyond the last operand misses its operand. -/
theorem operandFault_of_getElem? {places : List (Place count)} {operands : Text}
    {place : Place count} (found : places[operands.length]? = some place) :
    operandFault tokens places operands = some (missingOperand tokens place) := by
  induction places generalizing operands with
  | nil => cases found
  | cons head places ih =>
      cases operands with
      | nil =>
          cases found
          rfl
      | cons operand operands => exact ih found

/-- A wrong number of operands says nothing about the root or about links without an end. -/
theorem kind_of_operandFault {places : List (Place count)} {operands : Text} {fault : Fault}
    (found : operandFault tokens places operands = some fault) :
    fault.kind = .ambiguous ∧ fault.cause ≠ .endlessTree := by
  induction places generalizing operands with
  | nil =>
      cases operands with
      | nil => cases found
      | cons operand operands =>
          cases found
          exact ⟨rfl, nofun⟩
  | cons place places ih =>
      cases operands with
      | nil =>
          cases found
          exact ⟨rfl, nofun⟩
      | cons operand operands => exact ih found

/-- The empty places take the operands until one side runs out. -/
theorem attachAt_eq (table : LinkTable tokens) {places : List (Place count)} (operands : Text)
    (distinct : places.Nodup) :
    table.attachAt places operands =
      (table.storeAll ((places.filter fun place => (table.slot place).isNone).zip operands),
        operandFault tokens (places.filter fun place => (table.slot place).isNone) operands) := by
  induction places generalizing table operands with
  | nil => cases operands <;> rfl
  | cons place places ih =>
      obtain ⟨fresh, distinctRest⟩ := List.nodup_cons.1 distinct
      rw [attachAt.eq_def]
      cases content : table.slot place with
      | some child => simp [content, ih _ _ distinctRest]
      | none =>
          cases operands with
          | nil => simp [content, storeAll, operandFault]
          | cons operand operands =>
              have same : places.filter (fun other =>
                    ((table.fill place (.operand [operand])).slot other).isNone) =
                  places.filter fun other => (table.slot other).isNone := by
                refine List.filter_congr fun other member => ?_
                rw [slot_fill, if_neg fun equal : other = place => fresh (equal ▸ member)]
              simp [content, storeAll, operandFault, ih _ _ distinctRest, same]

theorem parent_storeAll (table : LinkTable tokens) (stored : List (Place count × Char)) :
    (table.storeAll stored).parent = table.parent := by
  induction stored generalizing table with
  | nil => rfl
  | cons entry rest ih => exact ih _

theorem map_fst_zip_eq_take {First Second : Type} (first : List First) (second : List Second) :
    (first.zip second).map Prod.fst = first.take second.length := by
  induction first generalizing second with
  | nil => simp
  | cons head rest ih =>
      cases second with
      | nil => rfl
      | cons other others => simp [ih]

/-- Every operand is the filling of its place. -/
def operandFillings (places : List (Place count)) (operands : Text) :
    List (Place count × Child count) :=
  (places.zip operands).map fun entry => (entry.1, .operand [entry.2])

/-- As many places are filled as there are operands. -/
theorem map_fst_operandFillings (places : List (Place count)) (operands : Text) :
    (operandFillings places operands).map Prod.fst = places.take operands.length := by
  rw [operandFillings, List.map_map, ← map_fst_zip_eq_take]
  rfl

theorem storeAll_eq_fillAll (table : LinkTable tokens) (places : List (Place count))
    (operands : Text) :
    table.storeAll (places.zip operands) = table.fillAll (operandFillings places operands) := by
  rw [fillAll, operandFillings, List.foldl_map]
  rfl

/-- A place behind the last operand keeps its content, and so does a place outside the row. -/
theorem slot_storeAll_of_not_mem (table : LinkTable tokens) {places : List (Place count)}
    {operands : Text} {place : Place count} (outside : place ∉ places.take operands.length) :
    (table.storeAll (places.zip operands)).slot place = table.slot place := by
  rw [storeAll_eq_fillAll, slot_fillAll_of_not_mem]
  rwa [map_fst_operandFillings]

theorem slot_storeAll_of_getElem? (table : LinkTable tokens) {places : List (Place count)}
    {operands : Text} {place : Place count} {operand : Char} {index : Nat}
    (distinct : places.Nodup) (placed : places[index]? = some place)
    (given : operands[index]? = some operand) :
    (table.storeAll (places.zip operands)).slot place = some (.operand [operand]) := by
  rw [storeAll_eq_fillAll]
  apply slot_fillAll_of_mem
  · rw [map_fst_operandFillings]
    exact distinct.sublist (List.take_sublist _ _)
  · have stored : (place, operand) ∈ places.zip operands :=
      List.mem_of_getElem? (List.getElem?_zip_eq_some.2 ⟨placed, given⟩)
    exact List.mem_map.2 ⟨(place, operand), stored, rfl⟩

end LinkTable

theorem Place.nodup_all (count : Nat) : (Place.all count).Nodup := by
  refine List.nodup_flatMap.2 ⟨fun index _ => by simp, ?_⟩
  refine (List.nodup_finRange count).imp fun different => ?_
  simp [Function.onFun, different.symm]

namespace LinkTable

theorem mem_emptyPlaces_iff {table : LinkTable tokens} {place : Place count} :
    place ∈ table.emptyPlaces ↔ table.slot place = none := by
  simp [emptyPlaces, Place.mem_all]

theorem nodup_emptyPlaces (table : LinkTable tokens) : table.emptyPlaces.Nodup :=
  (Place.nodup_all count).filter _

/-- The operands go into the empty places of the whole table. -/
theorem attachOperands_eq (table : LinkTable tokens) (operands : Text) :
    table.attachOperands operands =
      (table.storeAll (table.emptyPlaces.zip operands),
        operandFault tokens table.emptyPlaces operands) :=
  attachAt_eq table operands (Place.nodup_all count)

end LinkTable

/-- A token has a head on its left exactly if it stands above the token before it. -/
theorem exists_heads_left_iff {previous index : Fin count} (near : previous.val + 1 = index.val) :
    (∃ top, Heads tokens count ⟨.left, index⟩ top) ↔ Above tokens index previous := by
  constructor
  · rintro ⟨top, heads⟩
    have faces := heads.faces
    rw [Place.faces_left] at faces
    exact heads.rules.2 previous (.inr ⟨by omega, by dsimp only; omega⟩)
  · intro above
    have faces : previous < index := by omega
    have rules : Rules tokens index previous := .of_before faces fun between lower upper =>
      (show between = previous by omega) ▸ above
    exact Heads.exists_of_rules previous.isLt faces rules

/-- A token has a head on its right exactly if it stands above the token after it. -/
theorem exists_heads_right_iff {index next : Fin count} (near : index.val + 1 = next.val) :
    (∃ top, Heads tokens count ⟨.right, index⟩ top) ↔ Above tokens index next := by
  constructor
  · rintro ⟨top, heads⟩
    have faces := heads.faces
    rw [Place.faces_right] at faces
    exact heads.rules.2 next (.inl ⟨by dsimp only; omega, by omega⟩)
  · intro above
    have faces : index < next := by omega
    have rules : Rules tokens index next := .of_after faces fun between lower upper =>
      (show between = next by omega) ▸ above
    exact Heads.exists_of_rules next.isLt faces rules

/-- The gap of a place is the number of operands in front of it. -/
def Place.gap (place : Place count) : Nat :=
  match place.side with
  | .left => place.index.val
  | .right => place.index.val + 1

namespace LinkTable

variable {table : LinkTable tokens}

theorem slot_isNone_iff (shows : table.Shows (Heads tokens count)) {place : Place count} :
    (table.slot place).isNone ↔ ¬ ∃ index, Heads tokens count place index := by
  rw [Option.isNone_iff_eq_none, shows.slot_eq_none, not_exists]

/-- Between two neighbours exactly one of the facing slots is empty. -/
theorem slot_right_isNone_iff (shows : table.Shows (Heads tokens count)) {index next : Fin count}
    (near : index.val + 1 = next.val) :
    (table.slot ⟨.right, index⟩).isNone ↔ ¬ (table.slot ⟨.left, next⟩).isNone := by
  have different : index ≠ next := by omega
  rw [slot_isNone_iff shows, slot_isNone_iff shows, exists_heads_right_iff near,
    exists_heads_left_iff near, not_not]
  exact ⟨.of_not different.symm, Above.asymm⟩

theorem slot_right_isNone_of_last (shows : table.Shows (Heads tokens count)) {index : Fin count}
    (last : index.val + 1 = count) : (table.slot ⟨.right, index⟩).isNone := by
  rw [slot_isNone_iff shows]
  rintro ⟨top, heads⟩
  have faces := heads.faces
  rw [Place.faces_right] at faces
  omega

theorem slot_left_isNone_of_first (shows : table.Shows (Heads tokens count)) {index : Fin count}
    (first : index.val = 0) : (table.slot ⟨.left, index⟩).isNone := by
  rw [slot_isNone_iff shows]
  rintro ⟨top, heads⟩
  have faces := heads.faces
  rw [Place.faces_left] at faces
  omega

/-- From the right slot of a token on, the empty places stand at the gaps behind the token. -/
theorem map_gap_behind (shows : table.Shows (Heads tokens count)) {limit : Nat}
    {index : Fin count} {rest : List (Fin count)}
    (row : (List.finRange count).drop limit = index :: rest) :
    ((⟨.right, index⟩ :: rest.flatMap fun index => [⟨.left, index⟩, ⟨.right, index⟩]).filter
        fun place => (table.slot place).isNone).map Place.gap =
      List.range' (limit + 1) (count - limit) := by
  induction rest generalizing limit index with
  | nil =>
      obtain ⟨rfl, remaining⟩ := drop_finRange_eq_cons row
      have length := congrArg List.length remaining
      rw [List.length_drop, List.length_finRange, List.length_nil] at length
      have last : index.val + 1 = count := by omega
      have one : count - index.val = 1 := by omega
      simp [slot_right_isNone_of_last shows last, Place.gap, one]
  | cons next rest ih =>
      obtain ⟨rfl, remaining⟩ := drop_finRange_eq_cons row
      have near := (drop_finRange_eq_cons remaining).1
      have opposite := slot_right_isNone_iff shows near.symm
      have length : count - index.val = count - (index.val + 1) + 1 := by omega
      rw [List.flatMap_cons, length, List.range'_succ, ← ih remaining]
      by_cases empty : (table.slot ⟨.left, next⟩).isNone
      · have filled : (table.slot ⟨.right, index⟩).isNone = false :=
          Bool.eq_false_iff.2 fun free => opposite.1 free empty
        simp [empty, filled, Place.gap, near]
      · have free : (table.slot ⟨.right, index⟩).isNone = true := opposite.2 empty
        simp [empty, free, Place.gap]

/-- There is one empty place for every gap. -/
theorem map_gap_emptyPlaces (shows : table.Shows (Heads tokens count)) (some : 0 < count) :
    table.emptyPlaces.map Place.gap = List.range (count + 1) := by
  obtain ⟨index, rest, row⟩ := List.exists_cons_of_length_pos
    (show 0 < (List.finRange count).length by rwa [List.length_finRange])
  have start : (List.finRange count).drop 0 = index :: rest := row
  have first := (drop_finRange_eq_cons start).1
  have empty := slot_left_isNone_of_first shows first
  have behind := map_gap_behind shows start
  rw [Nat.sub_zero] at behind
  rw [List.range_eq_range', List.range'_succ, ← behind]
  simp [emptyPlaces, Place.all, row, empty, Place.gap, first]

theorem length_emptyPlaces (shows : table.Shows (Heads tokens count)) (positive : 0 < count) :
    table.emptyPlaces.length = count + 1 := by
  rw [← List.length_map Place.gap, map_gap_emptyPlaces shows positive, List.length_range]

/-- The empty places stand in the order of their gaps. -/
theorem gap_of_getElem?_emptyPlaces (shows : table.Shows (Heads tokens count))
    (positive : 0 < count) {index : Nat} {place : Place count}
    (placed : table.emptyPlaces[index]? = some place) : place.gap = index := by
  have inside : index < count + 1 :=
    length_emptyPlaces shows positive ▸ (List.getElem?_eq_some_iff.1 placed).1
  have mapped := congrArg (fun row => row[index]?) (map_gap_emptyPlaces shows positive)
  rw [List.getElem?_map, placed, List.getElem?_range inside] at mapped
  exact Option.some.inj mapped

/-- In the filled table every slot that was empty holds the operand of its gap. -/
def FillsGaps (table filled : LinkTable tokens) (operands : Text) : Prop :=
  ∀ place, filled.slot place = (table.slot place).or
    (operands[place.gap]?.map fun operand => .operand [operand])

/-- With one operand for every gap, every empty slot takes the operand of its gap. -/
theorem exists_attachOperands (shows : table.Shows (Heads tokens count)) (some : 0 < count)
    {operands : Text} (enough : operands.length = count + 1) :
    ∃ filled : LinkTable tokens, table.attachOperands operands = (filled, none) ∧
      filled.parent = table.parent ∧ table.FillsGaps filled operands := by
  have length := length_emptyPlaces shows some
  have faultless : operandFault tokens table.emptyPlaces operands = none :=
    operandFault_eq_none.2 (enough.trans length.symm)
  refine ⟨table.storeAll (table.emptyPlaces.zip operands), ?_, parent_storeAll _ _, fun place => ?_⟩
  · rw [attachOperands_eq, faultless]
  · cases content : table.slot place with
    | some child =>
        have outside : place ∉ table.emptyPlaces.take operands.length := by
          intro member
          cases content.symm.trans (mem_emptyPlaces_iff.1 (List.mem_of_mem_take member))
        rw [slot_storeAll_of_not_mem table outside, content, Option.some_or]
    | none =>
        obtain ⟨index, placed⟩ := List.getElem?_of_mem (mem_emptyPlaces_iff.2 content)
        have inside : index < table.emptyPlaces.length := (List.getElem?_eq_some_iff.1 placed).1
        have gap := gap_of_getElem?_emptyPlaces shows some placed
        have given := List.getElem?_eq_getElem (show index < operands.length by omega)
        rw [slot_storeAll_of_getElem? table table.nodup_emptyPlaces placed given, Option.none_or,
          gap, given]
        rfl

end LinkTable

end PolishNotation
