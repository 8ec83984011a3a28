import Mathlib.Data.List.Basic
import PolishNotation.Grammar
import PolishNotation.Proofs.Character

namespace PolishNotation.Grammar

/-- The depth behind a text differs by this number from the depth in front of it. -/
def netDepth (text : Text) : Int :=
  text.count Expression.opening - text.count Expression.closing

theorem netDepth_append (first second : Text) :
    netDepth (first ++ second) = netDepth first + netDepth second := by
  simp only [netDepth, List.count_append]
  omega

theorem netDepth_opening : netDepth [Expression.opening] = 1 := rfl

theorem netDepth_closing : netDepth [Expression.closing] = -1 := rfl

/-- Only a parenthesis changes the depth. -/
theorem netDepth_of_ne {character : Char} (opening : character ≠ Expression.opening)
    (closing : character ≠ Expression.closing) : netDepth [character] = 0 := by
  simp [netDepth, opening, closing]

theorem netDepth_of_isBlank {character : Char} (blank : isBlank character = true) :
    netDepth [character] = 0 :=
  netDepth_of_ne (ne_parenthesis_of_isBlank blank).1 (ne_parenthesis_of_isBlank blank).2

theorem netDepth_of_isLetter {character : Char} (letter : isLetter character = true) :
    netDepth [character] = 0 :=
  netDepth_of_ne (ne_parenthesis_of_isLetter letter).1 (ne_parenthesis_of_isLetter letter).2

theorem netDepth_symbol (operator : Operator) : netDepth [operator.symbol] = 0 :=
  netDepth_of_ne operator.symbol_isPlain.2.2.1 operator.symbol_isPlain.2.2.2

theorem depthAt_length (text : Text) : depthAt text text.length = netDepth text := by
  rw [depthAt, List.take_length, netDepth]

/-- Further characters change no depth in front of them. -/
theorem depthAt_append {before : Text} (rest : Text) {index : Nat}
    (inside : index ≤ before.length) : depthAt (before ++ rest) index = depthAt before index := by
  rw [depthAt, depthAt, List.take_append_of_le_length inside]

/-- An operator character stands for a token. -/
def tokenOf? (depth position : Int) (character : Char) : Option Token :=
  (Operator.ofSymbol? character).map fun operator => .ofOperator operator depth position

/-- A further character adds at most its own token. -/
theorem tokensOf_append_singleton (before : Text) (character : Char) :
    tokensOf (before ++ [character]) = tokensOf before ++
      (tokenOf? (netDepth before) before.length character).toList := by
  have same : before.zipIdx.filterMap (fun entry =>
        tokenOf? (depthAt (before ++ [character]) entry.2) entry.2 entry.1) = tokensOf before := by
    apply List.filterMap_congr
    intro entry member
    have inside := (List.mem_zipIdx member).2.1
    rw [depthAt_append [character] (by omega), tokenOf?]
  rw [← same, ← depthAt_length, tokensOf, List.zipIdx_append, List.filterMap_append]
  congr 1
  cases found : Operator.ofSymbol? character <;> simp [tokenOf?, found, depthAt_append]

/-- A token of a text has the depth and the length of the text in front of it, where the tokens before
it stand. -/
theorem exists_before_of_tokensOf {text : Text} {index : Nat} {token : Token}
    (found : (tokensOf text)[index]? = some token) :
    ∃ before operator after, text = before ++ Operator.symbol operator :: after ∧
      tokensOf before = (tokensOf text).take index ∧
      token = .ofOperator operator (netDepth before) before.length := by
  induction text using List.reverseRecOn with
  | nil => simp [tokensOf] at found
  | append_singleton front character ih =>
      rw [tokensOf_append_singleton] at found ⊢
      by_cases inside : index < (tokensOf front).length
      · rw [List.getElem?_append_left inside] at found
        obtain ⟨before, operator, after, rfl, tokens, same⟩ := ih found
        rw [List.take_append_of_le_length (Nat.le_of_lt inside)]
        exact ⟨before, operator, after ++ [character], by simp, tokens, same⟩
      · rw [List.getElem?_append_right (Nat.le_of_not_lt inside)] at found
        obtain ⟨operator, symbol, rfl⟩ :=
          Option.map_eq_some_iff.1 (Option.mem_toList.1 (List.mem_of_getElem? found))
        have last : index = (tokensOf front).length := by
          have bound := (List.getElem?_eq_some_iff.1 found).1
          have single := Option.length_toList_le (o := tokenOf? (netDepth front) front.length character)
          omega
        rw [last, List.take_left, Operator.ofSymbol?_eq_some_iff.1 symbol]
        exact ⟨front, operator, [], rfl, rfl, rfl⟩

/-- These are the tokens of a text behind some depth without their positions. -/
def levels (depth : Int) : Text → List Token
  | [] => []
  | character :: rest =>
      (tokenOf? depth Token.unknownPosition character).toList ++
        levels (depth + netDepth [character]) rest

theorem levels_append (depth : Int) (first second : Text) :
    levels depth (first ++ second) =
      levels depth first ++ levels (depth + netDepth first) second := by
  induction first generalizing depth with
  | nil => simp [levels, netDepth]
  | cons character first ih =>
      have change := netDepth_append [character] first
      rw [List.singleton_append] at change
      rw [List.cons_append, levels, levels, ih, change, Int.add_assoc, List.append_assoc]

/-- Blank characters stand for no tokens. -/
theorem levels_compact (depth : Int) (text : Text) :
    levels depth text.compact = levels depth text := by
  induction text generalizing depth with
  | nil => rfl
  | cons character rest ih =>
      rw [levels]
      cases visible : isBlank character with
      | true =>
          rw [Text.compact_cons_of_isBlank visible, ih, netDepth_of_isBlank visible, tokenOf?,
            ofSymbol?_of_isBlank visible, Int.add_zero]
          rfl
      | false => rw [Text.compact_cons visible, levels, ih]

/-- A token of a text has the precedence of its operator. -/
theorem precedence_of_mem_levels {depth : Int} {text : Text} {token : Token}
    (member : token ∈ levels depth text) : token.precedence = token.operator.precedence := by
  induction text generalizing depth with
  | nil => cases member
  | cons character rest ih =>
      rcases List.mem_append.1 member with first | later
      · obtain ⟨operator, -, rfl⟩ := Option.map_eq_some_iff.1 (Option.mem_toList.1 first)
        rfl
      · exact ih later

end PolishNotation.Grammar

namespace PolishNotation

/-- This function forgets where a token stands. -/
def Token.unplaced (token : Token) : Token :=
  { token with position := Token.unknownPosition }

/-- This function puts a token deeper by a number of levels. -/
def Token.deepened (more : Int) (token : Token) : Token :=
  { token with depth := token.depth + more }

namespace Grammar

/-- Deeper text has deeper tokens. -/
theorem levels_add (depth more : Int) (text : Text) :
    levels (depth + more) text = (levels depth text).map (Token.deepened more) := by
  induction text generalizing depth with
  | nil => rfl
  | cons character rest ih =>
      have order : depth + more + netDepth [character] = depth + netDepth [character] + more := by
        omega
      rw [levels, levels, order, ih, List.map_append]
      congr 1
      unfold tokenOf?
      cases Operator.ofSymbol? character <;> rfl

theorem map_unplaced_tokenOf? (depth position : Int) (character : Char) :
    (tokenOf? depth position character).toList.map Token.unplaced =
      (tokenOf? depth Token.unknownPosition character).toList := by
  unfold tokenOf?
  cases Operator.ofSymbol? character <;> rfl

theorem map_unplaced_tokensOf_append (before rest : Text) :
    (tokensOf (before ++ rest)).map Token.unplaced =
      (tokensOf before).map Token.unplaced ++ levels (netDepth before) rest := by
  induction rest generalizing before with
  | nil => simp [levels]
  | cons character rest ih =>
      rw [List.append_cons, ih, tokensOf_append_singleton, netDepth_append, levels,
        List.map_append, map_unplaced_tokenOf?, List.append_assoc]

/-- The tokens of a text lose nothing else but their positions. -/
theorem map_unplaced_tokensOf (text : Text) :
    (tokensOf text).map Token.unplaced = levels 0 text :=
  map_unplaced_tokensOf_append [] text

end Grammar

end PolishNotation
