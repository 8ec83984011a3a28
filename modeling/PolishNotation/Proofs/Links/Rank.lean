import PolishNotation.Links.Table
import PolishNotation.Tree.Split
import Mathlib.Data.Fintype.Basic
import Mathlib.Data.Fintype.Card
import Mathlib.Data.Fintype.EquivFin
import Mathlib.Order.WellFounded

namespace PolishNotation

variable {count : Nat} {tokens : Vector Token count} {limit : Nat}

/-- A token stands above another one if it outranks it, and the later one of two equal tokens
stands above the earlier one. -/
def Above (tokens : Vector Token count) (upper lower : Fin count) : Prop :=
  (tokens.get upper).Outranks (tokens.get lower) ∨
    lower < upper ∧ ¬ (tokens.get lower).Outranks (tokens.get upper)

theorem above_iff {upper lower : Fin count} :
    Above tokens upper lower ↔
      (tokens.get upper).depth < (tokens.get lower).depth ∨
        (tokens.get upper).depth = (tokens.get lower).depth ∧
          ((tokens.get lower).precedence < (tokens.get upper).precedence ∨
            (tokens.get lower).precedence = (tokens.get upper).precedence ∧ lower < upper) := by
  simp only [Above, Token.Outranks, Token.TighterThan]
  omega

namespace Above

theorem irrefl (index : Fin count) : ¬ Above tokens index index := by
  rw [above_iff]
  omega

theorem trans {first second third : Fin count} (upper : Above tokens first second)
    (lower : Above tokens second third) : Above tokens first third := by
  rw [above_iff] at *
  omega

theorem asymm {first second : Fin count} (above : Above tokens first second) :
    ¬ Above tokens second first :=
  fun below => irrefl first (above.trans below)

theorem of_not {first second : Fin count} (different : first ≠ second)
    (below : ¬ Above tokens second first) : Above tokens first second := by
  rw [above_iff] at *
  omega

theorem depth_le {upper lower : Fin count} (above : Above tokens upper lower) :
    (tokens.get upper).depth ≤ (tokens.get lower).depth := by
  rw [above_iff] at above
  omega

instance : IsTrans (Fin count) (Above tokens) := ⟨fun _ _ _ upper lower => trans upper lower⟩

instance : Std.Irrefl (Above tokens) := ⟨irrefl⟩

end Above

/-- Among any tokens one stands above all others. -/
theorem exists_highest (tokens : Vector Token count) (chosen : Fin count → Prop)
    (some : ∃ index, chosen index) :
    ∃ top, chosen top ∧ ∀ other, chosen other → other ≠ top → Above tokens top other := by
  have order := Finite.wellFounded_of_trans_of_irrefl (Above tokens)
  obtain ⟨top, found, least⟩ := order.has_min {index | chosen index} some
  exact ⟨top, found, fun other member different => .of_not different.symm (least other member)⟩

/-- Among any tokens one stands below all others. -/
theorem exists_lowest (tokens : Vector Token count) (chosen : Fin count → Prop)
    (some : ∃ index, chosen index) :
    ∃ bottom, chosen bottom ∧
      ∀ other, chosen other → other ≠ bottom → Above tokens other bottom := by
  have order := Finite.wellFounded_of_trans_of_irrefl (Function.swap (Above tokens))
  obtain ⟨bottom, found, least⟩ := order.has_min {index | chosen index} some
  exact ⟨bottom, found, fun other member different => .of_not different (least other member)⟩

/-- A token rules another one if it stands above every token on the way to it. -/
def Rules (tokens : Vector Token count) (upper lower : Fin count) : Prop :=
  upper ≠ lower ∧ ∀ between : Fin count,
    upper < between ∧ between ≤ lower ∨ lower ≤ between ∧ between < upper →
      Above tokens upper between

namespace Rules

theorem above {upper lower : Fin count} (rules : Rules tokens upper lower) :
    Above tokens upper lower := by
  have different := rules.1
  exact rules.2 lower (by omega)

theorem asymm {first second : Fin count} (rules : Rules tokens first second) :
    ¬ Rules tokens second first :=
  fun opposite => rules.above.asymm opposite.above

theorem of_before {upper lower : Fin count} (before : lower < upper)
    (above : ∀ between, lower ≤ between → between < upper → Above tokens upper between) :
    Rules tokens upper lower :=
  ⟨Ne.symm (Fin.ne_of_lt before), fun between range => above between (by omega) (by omega)⟩

theorem of_after {upper lower : Fin count} (after : upper < lower)
    (above : ∀ between, upper < between → between ≤ lower → Above tokens upper between) :
    Rules tokens upper lower :=
  ⟨Fin.ne_of_lt after, fun between range => above between (by omega) (by omega)⟩

/-- A token rules everything between itself and a token that it rules. -/
theorem between {upper lower middle : Fin count} (rules : Rules tokens upper lower)
    (range : upper < middle ∧ middle ≤ lower ∨ lower ≤ middle ∧ middle < upper) :
    Rules tokens upper middle :=
  ⟨by omega, fun other inner => rules.2 other (by omega)⟩

theorem trans {first second third : Fin count} (upper : Rules tokens first second)
    (lower : Rules tokens second third) : Rules tokens first third := by
  have different : first ≠ third := by
    rintro rfl
    exact upper.asymm lower
  refine ⟨different, fun other range => ?_⟩
  by_cases near : first < other ∧ other ≤ second ∨ second ≤ other ∧ other < first
  · exact upper.2 other near
  · exact upper.above.trans (lower.2 other (by omega))

end Rules

/-- Two tokens that rule a third one rule one another. -/
theorem rules_of_rules {first second lower : Fin count} (one : Rules tokens first lower)
    (other : Rules tokens second lower) (above : Above tokens first second) :
    Rules tokens first second := by
  have different : first ≠ second := by
    rintro rfl
    exact above.asymm above
  have apart : ¬ Above tokens second first := above.asymm
  refine ⟨different, fun between range => ?_⟩
  by_cases near : first < between ∧ between ≤ lower ∨ lower ≤ between ∧ between < first
  · exact one.2 between near
  · by_cases same : between = second
    · exact same ▸ above
    · -- Behind the third token, the second one stands above all that the first one has to pass.
      have inner : second < between ∧ between ≤ lower ∨ lower ≤ between ∧ between < second := by
        have outside : ¬ (second < first ∧ first ≤ lower ∨ lower ≤ first ∧ first < second) :=
          fun inside => apart (other.2 first inside)
        have oneDifferent := one.1
        omega
      exact above.trans (other.2 between inner)

/-- The tokens on the side of a place lie before or after its operator. -/
def Place.Faces (place : Place count) (index : Fin count) : Prop :=
  match place.side with
  | .left => index < place.index
  | .right => place.index < index

@[simp] theorem Place.faces_left {target index : Fin count} :
    Place.Faces ⟨.left, target⟩ index ↔ index < target := Iff.rfl

@[simp] theorem Place.faces_right {target index : Fin count} :
    Place.Faces ⟨.right, target⟩ index ↔ target < index := Iff.rfl

theorem Place.exists_faces {target index : Fin count} (different : target ≠ index) :
    ∃ side, Place.Faces ⟨side, target⟩ index := by
  rcases Nat.lt_or_gt_of_ne (Fin.val_ne_of_ne different) with later | earlier
  · exact ⟨.right, later⟩
  · exact ⟨.left, earlier⟩

theorem Place.ne_of_faces {place : Place count} {index : Fin count} (faces : place.Faces index) :
    place.index ≠ index := by
  rcases place with ⟨side, target⟩
  cases side with
  | left => exact Ne.symm (Fin.ne_of_lt faces)
  | right => exact Fin.ne_of_lt faces

/-- Everything on the way to a token stands on the same side. -/
theorem Place.faces_of_faces {place : Place count} {index between : Fin count}
    (faces : place.Faces index)
    (range : place.index < between ∧ between ≤ index ∨ index ≤ between ∧ between < place.index) :
    place.Faces between := by
  rcases place with ⟨side, target⟩
  cases side with
  | left =>
      rw [faces_left] at *
      dsimp only at range
      omega
  | right =>
      rw [faces_right] at *
      dsimp only at range
      omega

/-- The operator of a place stands between a token on this side and one that is not. -/
theorem Place.between_of_not_faces {place : Place count} {first second : Fin count}
    (faces : place.Faces first) (behind : ¬ place.Faces second) :
    second ≤ place.index ∧ place.index < first ∨ first < place.index ∧ place.index ≤ second := by
  rcases place with ⟨side, target⟩
  cases side with
  | left =>
      rw [faces_left] at *
      dsimp only
      omega
  | right =>
      rw [faces_right] at *
      dsimp only
      omega

/-- The tokens that an operator rules on one side stand next to each other. -/
theorem Place.faces_between {place : Place count} {first second middle : Fin count}
    (firstFaces : place.Faces first) (firstRules : Rules tokens place.index first)
    (secondFaces : place.Faces second) (secondRules : Rules tokens place.index second)
    (range : first ≤ middle ∧ middle ≤ second) :
    place.Faces middle ∧ Rules tokens place.index middle := by
  rcases place with ⟨side, target⟩
  cases side with
  | left =>
      rw [faces_left] at *
      exact ⟨by omega, firstRules.between (.inr ⟨range.1, by dsimp only; omega⟩)⟩
  | right =>
      rw [faces_right] at *
      exact ⟨by omega, secondRules.between (.inl ⟨by dsimp only; omega, range.2⟩)⟩

/-- In the tokens before the limit, the head of a place is the highest token that the operator of
the place rules on this side. -/
structure Heads (tokens : Vector Token count) (limit : Nat) (place : Place count)
    (index : Fin count) : Prop where
  inside : index.val < limit
  faces : place.Faces index
  rules : Rules tokens place.index index
  highest : ∀ other : Fin count, other.val < limit → place.Faces other →
    Rules tokens place.index other → other ≠ index → Above tokens index other

namespace Heads

theorem unique {place : Place count} {first second : Fin count}
    (one : Heads tokens limit place first) (other : Heads tokens limit place second) :
    first = second := by
  by_contra different
  have lower := one.highest second other.inside other.faces other.rules (Ne.symm different)
  have upper := other.highest first one.inside one.faces one.rules different
  exact lower.asymm upper

/-- A place whose operator rules a token on its side has a head. -/
theorem exists_of_rules {place : Place count} {index : Fin count} (inside : index.val < limit)
    (faces : place.Faces index) (rules : Rules tokens place.index index) :
    ∃ top, Heads tokens limit place top := by
  obtain ⟨top, ⟨topInside, topFaces, topRules⟩, highest⟩ := exists_highest tokens
    (fun other => other.val < limit ∧ place.Faces other ∧ Rules tokens place.index other)
    ⟨index, inside, faces, rules⟩
  exact ⟨top, topInside, topFaces, topRules,
    fun other otherInside otherFaces otherRules =>
      highest other ⟨otherInside, otherFaces, otherRules⟩⟩

/-- The head of a place rules all other tokens that the operator of the place rules there. -/
theorem rules_of_rules {place : Place count} {top index : Fin count}
    (heads : Heads tokens limit place top) (inside : index.val < limit)
    (faces : place.Faces index) (rules : Rules tokens place.index index) (different : index ≠ top) :
    Rules tokens top index := by
  have topInside := heads.inside
  refine ⟨different.symm, fun between range => ?_⟩
  have facing : place.Faces between ∧ Rules tokens place.index between := by
    rcases Nat.le_total top.val index.val with before | after
    · exact place.faces_between heads.faces heads.rules faces rules (by omega)
    · exact place.faces_between faces rules heads.faces heads.rules (by omega)
  exact heads.highest between (by omega) facing.1 facing.2 (by omega)

/-- The operator of the place of a head stands above no other token that rules the head. -/
theorem not_above_of_rules {place : Place count} {top other : Fin count}
    (heads : Heads tokens limit place top) (inside : other.val < limit)
    (rules : Rules tokens other top) : ¬ Above tokens place.index other := by
  intro above
  have placeRules := PolishNotation.rules_of_rules heads.rules rules above
  have different := placeRules.1
  have topDifferent := heads.rules.1
  by_cases faces : place.Faces other
  · -- The head stands above all tokens on its side, and so above one that rules it.
    exact (heads.highest other inside faces placeRules rules.1).asymm rules.above
  · -- The operator of the place stands between the other token and the head.
    have opposite := Place.between_of_not_faces heads.faces faces
    exact above.asymm (rules.between (by omega)).above

/-- No token is the head of two places. -/
theorem place_unique {first second : Place count} {index : Fin count}
    (firstInside : first.index.val < limit) (secondInside : second.index.val < limit)
    (one : Heads tokens limit first index) (other : Heads tokens limit second index) :
    first = second := by
  have sameIndex : first.index = second.index := by
    by_contra different
    exact one.not_above_of_rules secondInside other.rules
      (.of_not different (other.not_above_of_rules firstInside one.rules))
  have oneFaces := one.faces
  have otherFaces := other.faces
  rcases first with ⟨firstSide, firstIndex⟩
  rcases second with ⟨secondSide, secondIndex⟩
  cases sameIndex
  cases firstSide <;> cases secondSide <;> simp at * <;> omega

/-- Every token that is ruled is the head of a place, and the operator of the place is the lowest
token that rules it. -/
theorem exists_place {upper lower : Fin count} (upperInside : upper.val < limit)
    (lowerInside : lower.val < limit) (rules : Rules tokens upper lower) :
    ∃ place : Place count, place.index.val < limit ∧ Heads tokens limit place lower ∧
      (place.index = upper ∨ Above tokens upper place.index) := by
  obtain ⟨target, ⟨targetInside, targetRules⟩, lowest⟩ := exists_lowest tokens
    (fun other => other.val < limit ∧ Rules tokens other lower) ⟨upper, upperInside, rules⟩
  obtain ⟨side, faces⟩ := Place.exists_faces targetRules.1
  obtain ⟨top, heads⟩ : ∃ top, Heads tokens limit ⟨side, target⟩ top :=
    exists_of_rules lowerInside faces targetRules
  have same : lower = top := by
    by_contra different
    have topRules := heads.rules_of_rules lowerInside faces targetRules different
    have topAbove := lowest top ⟨heads.inside, topRules⟩ heads.rules.1.symm
    exact topAbove.asymm heads.rules.above
  subst same
  refine ⟨⟨side, target⟩, targetInside, heads, ?_⟩
  by_cases end_ : target = upper
  · exact .inl end_
  · exact .inr (lowest upper ⟨upperInside, rules⟩ (Ne.symm end_))

/-- The operator of this place lies between the two tokens in depth as well. -/
theorem exists_place_between {upper lower : Fin count} (upperInside : upper.val < limit)
    (lowerInside : lower.val < limit) (rules : Rules tokens upper lower) :
    ∃ place : Place count, place.index.val < limit ∧ Heads tokens limit place lower ∧
      (tokens.get upper).depth ≤ (tokens.get place.index).depth ∧
        (tokens.get place.index).depth ≤ (tokens.get lower).depth := by
  obtain ⟨place, inside, heads, between⟩ := exists_place upperInside lowerInside rules
  refine ⟨place, inside, heads, ?_, heads.rules.above.depth_le⟩
  rcases between with equal | above
  · rw [equal]
  · exact above.depth_le

end Heads

end PolishNotation
