import PolishNotation.Links.Between
import PolishNotation.Links.Unfolding
import PolishNotation.Links.Within

namespace PolishNotation

namespace LinkTable

/-- The operators are linked in two passes over a fresh table. -/
def linkOperators {count : Nat} (tokens : Vector Token count) : Option (LinkTable tokens) :=
  (fresh tokens).linkWithinGroups.map linkBetweenGroups

variable {count : Nat} {tokens : Vector Token count}

/-- This fault names the place whose operand is missing. -/
def missingOperand (tokens : Vector Token count) (place : Place count) : Fault :=
  ⟨.missingOperand place.side (tokens.get place.index).operator,
    Token.known? (tokens.get place.index).position⟩

/-- Every empty slot takes the next operand. The table keeps the operands that were put in before a
fault. -/
def attachAt (table : LinkTable tokens) :
    List (Place count) → Text → LinkTable tokens × Option Fault
  | [], [] => (table, none)
  | [], operand :: rest => (table, some (.whole (.unusedOperands (operand :: rest))))
  | place :: places, operands =>
      match table.slot place with
      | some _ => table.attachAt places operands
      | none =>
          match operands with
          | [] => (table, some (missingOperand tokens place))
          | operand :: rest => (table.fill place (.operand [operand])).attachAt places rest

/-- The operands go into the empty slots of the whole table. -/
def attachOperands (table : LinkTable tokens) (operands : Text) :
    LinkTable tokens × Option Fault :=
  table.attachAt (Place.all count) operands

/-- The empty slots stand in the order of their places. -/
def emptyPlaces (table : LinkTable tokens) : List (Place count) :=
  (Place.all count).filter fun place => (table.slot place).isNone

/-- A finished table is turned into the tree below its root. -/
def tree (table : LinkTable tokens) : Except Fault Tree :=
  match table.root with
  | .error fault => .error fault
  | .ok index =>
      match table.treeAt? index with
      | none => .error (.whole .endlessTree)
      | some found => .ok found

/-- The operands complete the links of the operators to a tree. -/
def complete (table : LinkTable tokens) (operands : Text) : Report Tree :=
  match table.attachOperands operands with
  | (filled, some fault) => ⟨.error fault, filled.events.toList⟩
  | (filled, none) => ⟨filled.tree, filled.events.toList⟩

end LinkTable

/-- Without operators the tree is the only operand. -/
def Tree.ofOperands : Text → Except Fault Tree
  | [operand] => .ok (.leaf [operand])
  | operands => .error (.whole (.operandCount operands.length))

namespace Expression

/-- This function builds the tree of any operands and tokens. -/
def construct (expression : Expression) : Report Tree :=
  if expression.tokens.isEmpty then ⟨Tree.ofOperands expression.operands, []⟩
  else
    match LinkTable.linkOperators expression.tokens.toArray.toVector with
    | none => ⟨.error (.whole .endlessTree), []⟩
    | some table => table.complete expression.operands

/-- The events of the construction are left out. -/
def tree (expression : Expression) : Except Fault Tree :=
  expression.construct.result

end Expression

/-- An operation is one of the passes over the whole table or one link. -/
inductive Operation (count : Nat) where
  | linkWithinGroups
  | linkBetweenGroups
  | attachOperands (operands : Text)
  | fill (place : Place count) (child : Child count)

namespace LinkTable

variable {count : Nat} {tokens : Vector Token count}

/-- The next table is missing only if a climb has no end. Operands that do not fit leave behind
the slots that they filled. -/
def perform (table : LinkTable tokens) : Operation count → Option (LinkTable tokens)
  | .linkWithinGroups => table.linkWithinGroups
  | .linkBetweenGroups => some table.linkBetweenGroups
  | .attachOperands operands => some (table.attachOperands operands).1
  | .fill place child => some (table.fill place child)

/-- Every operation works on the table that the one before it left. -/
def performAll (table : LinkTable tokens) (operations : List (Operation count)) :
    Option (LinkTable tokens) :=
  operations.foldlM perform table

end LinkTable

end PolishNotation
