import PolishNotation.Links.Table

namespace PolishNotation

namespace LinkTable

variable {count : Nat} {tokens : Vector Token count}

/-- Only groups that are not deeper than the token go on after it. -/
def enclosing (tokens : Vector Token count) (index : Fin count) (latest : List (Fin count)) :
    List (Fin count) :=
  latest.dropWhile fun other => (tokens.get index).depth < (tokens.get other).depth

/-- The first of the latest tokens is the previous one of the group if it has the same depth. -/
def previous? (tokens : Vector Token count) (index : Fin count) (latest : List (Fin count)) :
    Option (Fin count) :=
  match enclosing tokens index latest with
  | [] => none
  | other :: _ =>
      if (tokens.get other).depth = (tokens.get index).depth then some other else none

/-- A token becomes the latest token of its group. -/
def enter (tokens : Vector Token count) (index : Fin count) (latest : List (Fin count)) :
    List (Fin count) :=
  match enclosing tokens index latest with
  | [] => [index]
  | other :: outer =>
      if (tokens.get other).depth = (tokens.get index).depth then index :: outer
      else index :: other :: outer

/-- The climb stops below the first ancestor that the token binds tighter than. A climb that needs
more steps than there are tokens goes round in a circle and has no end. -/
def climb (table : LinkTable tokens) (token : Token) : Nat → Fin count → Option (Fin count)
  | 0, _ => none
  | steps + 1, node =>
      match table.parent.get node with
      | none => some node
      | some ancestor =>
          if token.TighterThan (tokens.get ancestor) then some node
          else table.climb token steps ancestor

/-- The token takes the place of the subtree under the ancestor and adopts the subtree. -/
def adopt (table : LinkTable tokens) (index node : Fin count) : LinkTable tokens :=
  match table.parent.get node with
  | none => table.fill ⟨.left, index⟩ (.operator node)
  | some ancestor =>
      (table.fill ⟨.right, ancestor⟩ (.operator index)).fill ⟨.left, index⟩ (.operator node)

/-- A tighter token stands on the right of the previous one. Any other token adopts the largest
subtree with the previous token on its right edge that does not bind looser. -/
def join (table : LinkTable tokens) (previous index : Fin count) : Option (LinkTable tokens) :=
  if (tokens.get index).TighterThan (tokens.get previous) then
    some (table.fill ⟨.right, previous⟩ (.operator index))
  else (table.climb (tokens.get index) count previous).map (table.adopt index)

/-- The tokens still to be visited join their groups one after the other. -/
def joinAll (latest : List (Fin count)) (table : LinkTable tokens) :
    List (Fin count) → Option (LinkTable tokens)
  | [] => some table
  | index :: rest =>
      match previous? tokens index latest with
      | none => joinAll (enter tokens index latest) table rest
      | some previous =>
          match table.join previous index with
          | none => none
          | some next => joinAll (enter tokens index latest) next rest

/-- Every token joins its group. The result is missing only if a climb has no end. -/
def linkWithinGroups (table : LinkTable tokens) : Option (LinkTable tokens) :=
  joinAll [] table (List.finRange count)

end LinkTable

end PolishNotation
