import PolishNotation.Phrase

/-! This file introduces terms, which are expressions without any layout. -/

namespace PolishNotation

/-- A term is one operand or an operator over two terms. -/
inductive Term where
  | operand (character : Char)
  | binary (operator : Operator) (left right : Term)
  deriving DecidableEq

namespace Term

/-- The outermost operator has the precedence of the term. An operand binds tighter than every
operator. -/
def precedence : Term → Int
  | operand _ => 0
  | binary operator _ _ => operator.precedence

/-- A left term needs parentheses if it is looser than the operator, and a right term also if it is
equally loose. -/
def written : Term → Text
  | operand character => [character]
  | binary operator left right =>
      Text.enclosed (operator.precedence < left.precedence) left.written ++ operator.symbol ::
        Text.enclosed (operator.precedence ≤ right.precedence) right.written

/-- An operator follows its left term and its right term. -/
def postorder : Term → Text
  | operand character => [character]
  | binary operator left right => left.postorder ++ right.postorder ++ [operator.symbol]

/-- An operator takes the last term as its right side and the one before as its left side. -/
def joinLast (operator : Operator) (index : Nat) : List Term → Except StackFault (List Term)
  | right :: left :: below => .ok (.binary operator left right :: below)
  | stack => .error (.underflow operator index stack.length)

/-- An operand becomes the last term of the stack. -/
def pushToken (stack : List Term) (index : Nat) (character : Char) :
    Except StackFault (List Term) :=
  match Operator.ofSymbol? character with
  | some operator => joinLast operator index stack
  | none =>
      if isLetter character then .ok (.operand character :: stack)
      else .error (.unknownToken character index)

/-- The reader goes on until the first fault. -/
def pushAll (stack : List Term) (index : Nat) : Text → Except StackFault (List Term)
  | [] => .ok stack
  | character :: rest =>
      match pushToken stack index character with
      | .error fault => .error fault
      | .ok next => pushAll next (index + 1) rest

/-- A text is the text of one term if exactly one term remains. -/
def ofPostfix (text : Text) : Except StackFault Term :=
  match pushAll [] 0 text.compact with
  | .error fault => .error fault
  | .ok [term] => .ok term
  | .ok stack => .error (.leftover (stack.reverse.map written))

theorem pushAll_nil (stack : List Term) (index : Nat) : pushAll stack index [] = .ok stack := rfl

theorem pushAll_cons (stack : List Term) (index : Nat) (character : Char) (rest : Text) :
    pushAll stack index (character :: rest) =
      (pushToken stack index character).bind fun next => pushAll next (index + 1) rest := by
  simp only [pushAll]
  cases pushToken stack index character <;> rfl

/-- Reading two pieces is reading the second onto the stack of the first. -/
theorem pushAll_append (stack : List Term) (index : Nat) (first second : Text) :
    pushAll stack index (first ++ second) =
      (pushAll stack index first).bind fun next => pushAll next (index + first.length) second := by
  induction first generalizing stack index with
  | nil => rfl
  | cons character rest ih =>
      rw [List.cons_append, pushAll_cons, pushAll_cons]
      cases pushToken stack index character with
      | error fault => rfl
      | ok next =>
          have place : index + (rest.length + 1) = index + 1 + rest.length := by omega
          simp only [Except.bind, ih, List.length_cons, place]

end Term

namespace Phrase

/-- A term is written with the precedence of its outermost operator beside it. -/
def ofTerm (term : Term) : Phrase :=
  ⟨term.written, term.precedence⟩

theorem joinLast_map (operator : Operator) (index : Nat) (stack : List Term) :
    joinLast operator index (stack.map ofTerm) =
      (Term.joinLast operator index stack).map (List.map ofTerm) := by
  match stack with
  | [] => rfl
  | [_] => rfl
  | _ :: _ :: _ => rfl

theorem pushToken_map (stack : List Term) (index : Nat) (character : Char) :
    pushToken (stack.map ofTerm) index character =
      (Term.pushToken stack index character).map (List.map ofTerm) := by
  unfold pushToken Term.pushToken
  cases Operator.ofSymbol? character with
  | some operator => exact joinLast_map operator index stack
  | none => cases isLetter character <;> rfl

/-- Every phrase on the stack is a written term, and the precedence beside it is the one of the
term: the loop over phrases is the image of the loop over terms. -/
theorem pushAll_map (stack : List Term) (index : Nat) (text : Text) :
    pushAll (stack.map ofTerm) index text =
      (Term.pushAll stack index text).map (List.map ofTerm) := by
  induction text generalizing stack index with
  | nil => rfl
  | cons character rest ih =>
      rw [pushAll, Term.pushAll, pushToken_map]
      cases Term.pushToken stack index character with
      | error fault => rfl
      | ok next => exact ih next (index + 1)

theorem map_text_reverse (terms : List Term) :
    (terms.map ofTerm).reverse.map text = terms.reverse.map Term.written := by
  rw [← List.map_reverse, List.map_map]
  rfl

end Phrase

/-- The text that is left is the written term. -/
theorem toInfix_eq (text : Text) : toInfix text = (Term.ofPostfix text).map Term.written := by
  have image := Phrase.pushAll_map [] 0 text.compact
  rw [List.map_nil] at image
  rw [toInfix, image, Term.ofPostfix]
  cases Term.pushAll [] 0 text.compact with
  | error fault => rfl
  | ok stack =>
      match stack with
      | [] => rfl
      | [_] => rfl
      | last :: next :: below =>
          have texts := Phrase.map_text_reverse (last :: next :: below)
          exact congrArg (fun leftovers => Except.error (StackFault.leftover leftovers)) texts

end PolishNotation
