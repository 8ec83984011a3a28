import PolishNotation.Event

/-! This file introduces the table of links between the operators of an expression. -/

namespace PolishNotation

/-- A changed entry is the new one and every other entry is the old one. -/
theorem get_set {Entry : Type} {count : Nat} (entries : Vector Entry count)
    (index other : Fin count) (entry : Entry) :
    (entries.set index entry index.isLt).get other =
      if other = index then entry else entries.get other := by
  change (entries.set index.val entry index.isLt)[other.val] =
    if other = index then entry else entries[other.val]
  rw [Vector.getElem_set]
  simp [Fin.ext_iff, eq_comm]

theorem get_replicate {Entry : Type} {count : Nat} (entry : Entry) (index : Fin count) :
    (Vector.replicate count entry).get index = entry := by
  change (Vector.replicate count entry)[index.val] = entry
  simp

/-- A slot holds another operator by its index or an operand. -/
inductive Child (count : Nat) where
  | operator (index : Fin count)
  | operand (text : Text)
  deriving DecidableEq

/-- The table holds the slots, the parents and the record of all links in their order. -/
structure LinkTable {count : Nat} (tokens : Vector Token count) where
  left : Vector (Option (Child count)) count
  right : Vector (Option (Child count)) count
  parent : Vector (Option (Fin count)) count
  events : Array Event
  deriving DecidableEq

/-- A place is one side of one operator. -/
structure Place (count : Nat) where
  side : Side
  index : Fin count
  deriving DecidableEq

/-- The places stand in the order of their operators, the left one first. -/
def Place.all (count : Nat) : List (Place count) :=
  (List.finRange count).flatMap fun index => [⟨.left, index⟩, ⟨.right, index⟩]

theorem Place.mem_all {count : Nat} (place : Place count) : place ∈ Place.all count := by
  rcases place with ⟨side, index⟩
  refine List.mem_flatMap.2 ⟨index, List.mem_finRange index, ?_⟩
  cases side <;> simp

namespace LinkTable

variable {count : Nat} {tokens : Vector Token count}

/-- A fresh table has no links. -/
def fresh {count : Nat} (tokens : Vector Token count) : LinkTable tokens :=
  ⟨Vector.replicate _ none, Vector.replicate _ none, Vector.replicate _ none, #[]⟩

def slot (table : LinkTable tokens) (place : Place count) : Option (Child count) :=
  match place.side with
  | .left => table.left.get place.index
  | .right => table.right.get place.index

/-- An operator without a parent is free. -/
def isFree (table : LinkTable tokens) (index : Fin count) : Bool :=
  (table.parent.get index).isNone

/-- This event records a filled slot. -/
def fillEvent (tokens : Vector Token count) (place : Place count) : Child count → Event
  | .operator child => .linked (tokens.get child) place.side (tokens.get place.index)
  | .operand operand => .attached operand place.side (tokens.get place.index)

/-- The link overwrites the slot and gives an operator in it its new parent. -/
def fill (table : LinkTable tokens) (place : Place count) (child : Child count) :
    LinkTable tokens where
  left := match place.side with
    | .left => table.left.set place.index (some child) place.index.isLt
    | .right => table.left
  right := match place.side with
    | .left => table.right
    | .right => table.right.set place.index (some child) place.index.isLt
  parent := match child with
    | .operator index => table.parent.set index (some place.index) index.isLt
    | .operand _ => table.parent
  events := table.events.push (fillEvent tokens place child)

theorem slot_fresh (place : Place count) : (fresh tokens).slot place = none := by
  rcases place with ⟨side, index⟩
  cases side <;> exact get_replicate none index

theorem parent_fresh (index : Fin count) : (fresh tokens).parent.get index = none :=
  get_replicate none index

/-- The filled slot holds the child and every other slot keeps its content. -/
theorem slot_fill (table : LinkTable tokens) (place other : Place count) (child : Child count) :
    (table.fill place child).slot other =
      if other = place then some child else table.slot other := by
  rcases place with ⟨side, index⟩
  rcases other with ⟨otherSide, otherIndex⟩
  cases side <;> cases otherSide <;> simp [fill, slot, get_set]

/-- A child operator gets its parent and every other operator keeps its own. -/
theorem parent_fill_operator (table : LinkTable tokens) (place : Place count)
    (child index : Fin count) :
    (table.fill place (.operator child)).parent.get index =
      if index = child then some place.index else table.parent.get index := by
  simp [fill, get_set]

theorem parent_fill_operand (table : LinkTable tokens) (place : Place count) (operand : Text) :
    (table.fill place (.operand operand)).parent = table.parent := rfl

theorem events_fill (table : LinkTable tokens) (place : Place count) (child : Child count) :
    (table.fill place child).events = table.events.push (fillEvent tokens place child) := rfl

/-- The children go into their places one after the other. -/
def fillAll (table : LinkTable tokens) (fillings : List (Place count × Child count)) :
    LinkTable tokens :=
  fillings.foldl (fun current filling => current.fill filling.1 filling.2) table

end LinkTable

end PolishNotation
