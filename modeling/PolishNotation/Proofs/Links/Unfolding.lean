import Mathlib.Data.Fintype.Basic
import Mathlib.Data.Fintype.Card
import PolishNotation.Links.Unfolding

namespace PolishNotation

variable {count : Nat} {tokens : Vector Token count}

namespace LinkTable

variable {table : LinkTable tokens} {built next : Built count}

/-- Finished trees are unfoldings, and the children of a finished operator are finished. -/
structure IsSound (table : LinkTable tokens) (built : Built count) : Prop where
  unfolds : ∀ index tree, built.get index = some tree → table.Unfolds (.operator index) tree
  closed : ∀ place child, (built.get place.index).isSome →
    table.slot place = some (.operator child) → (built.get child).isSome

/-- This number counts the operators that have no tree yet. -/
def unbuilt (built : Built count) : Nat :=
  (Finset.univ.filter fun index => (built.get index).isNone).card

/-- The first operators of the agenda are finished. All trees stay, all new trees are small, and
every operator that is finished pays for three steps. -/
structure Finishes (table : LinkTable tokens) (front : List (Fin count)) (built next : Built count)
    (size steps : Nat) : Prop where
  run : ∀ more agenda, table.finishAll (steps + more) (front ++ agenda) built =
    table.finishAll more agenda next
  sound : table.IsSound next
  keeps : ∀ index tree, built.get index = some tree → next.get index = some tree
  small : ∀ index tree, next.get index = some tree →
    built.get index = some tree ∨ sizeOf tree ≤ size
  cost : steps + 3 * unbuilt next ≤ 3 * unbuilt built + front.length

theorem Finishes.nil (sound : table.IsSound built) (size : Nat) :
    table.Finishes [] built built size 0 where
  run more agenda := by rw [Nat.zero_add, List.nil_append]
  sound := sound
  keeps index tree found := found
  small index tree found := .inl found
  cost := by simp

theorem Finishes.append {first second : List (Fin count)} {middle : Built count}
    {firstSize secondSize size firstSteps secondSteps : Nat}
    (one : table.Finishes first built middle firstSize firstSteps)
    (other : table.Finishes second middle next secondSize secondSteps)
    (firstSmall : firstSize ≤ size) (secondSmall : secondSize ≤ size) :
    table.Finishes (first ++ second) built next size (firstSteps + secondSteps) where
  run more agenda := by rw [Nat.add_assoc, List.append_assoc, one.run, other.run]
  sound := other.sound
  keeps index tree found := other.keeps index tree (one.keeps index tree found)
  small index tree found := by
    rcases other.small index tree found with earlier | small
    · exact (one.small index tree earlier).imp_right fun small => Nat.le_trans small firstSmall
    · exact .inr (Nat.le_trans small secondSmall)
  cost := by
    have oneCost := one.cost
    have otherCost := other.cost
    rw [List.length_append]
    omega

/-- A child whose tree is finished has the tree that it unfolds to. -/
theorem childTree?_of_unfinished_eq_nil (sound : table.IsSound built) {place : Place count}
    {child : Child count} {tree : Tree} (content : table.slot place = some child)
    (unfolds : table.Unfolds child tree) (finished : table.unfinished built place = []) :
    childTree? built child = some tree := by
  cases child with
  | operand text =>
      cases unfolds
      rfl
  | operator index =>
      cases found : built.get index with
      | none => simp [unfinished, content, found] at finished
      | some other =>
          rw [childTree?, found, (sound.unfolds index other found).unique unfolds]

theorem unfinished_eq_nil {place : Place count} {child : Child count} {tree : Tree}
    (content : table.slot place = some child) (finished : childTree? built child = some tree) :
    table.unfinished built place = [] := by
  cases child with
  | operand text => simp [unfinished, content]
  | operator index =>
      rw [childTree?] at finished
      simp [unfinished, content, finished]

/-- The tree of an operator is put in place. -/
theorem unbuilt_set (built : Built count) (index : Fin count) (tree : Tree) :
    unbuilt (built.set index (some tree) index.isLt) =
      unbuilt built - if (built.get index).isNone then 1 else 0 := by
  have erased : (Finset.univ.filter fun other =>
        ((built.set index (some tree) index.isLt).get other).isNone) =
      (Finset.univ.filter fun other => (built.get other).isNone).erase index := by
    ext other
    rw [Finset.mem_erase, Finset.mem_filter, Finset.mem_filter, get_set]
    by_cases same : other = index
    · simp [same]
    · simp [same]
  rw [unbuilt, erased, unbuilt]
  by_cases missing : (built.get index).isNone
  · rw [if_pos missing, Finset.card_erase_of_mem (by simpa using missing)]
  · rw [if_neg missing, Finset.erase_eq_of_notMem (by simpa using missing), Nat.sub_zero]

/-- An operator with two finished children is finished in one step. -/
theorem finishes_of_children (sound : table.IsSound built) {index : Fin count}
    {left right : Child count} {leftTree rightTree : Tree}
    (leftSlot : table.slot ⟨.left, index⟩ = some left)
    (rightSlot : table.slot ⟨.right, index⟩ = some right)
    (leftFinished : childTree? built left = some leftTree)
    (rightFinished : childTree? built right = some rightTree)
    (unfolds : table.Unfolds (.operator index) (.node (tokens.get index) leftTree rightTree)) :
    table.Finishes [index] built
      (built.set index (some (.node (tokens.get index) leftTree rightTree)) index.isLt)
      (sizeOf (Tree.node (tokens.get index) leftTree rightTree)) 1 where
  run more agenda := by
    have waits : table.waiting built index = [] := by
      rw [waiting, unfinished_eq_nil rightSlot rightFinished,
        unfinished_eq_nil leftSlot leftFinished, List.append_nil]
    have tree : table.nodeTree? built index =
        some (.node (tokens.get index) leftTree rightTree) := by
      simp [nodeTree?, leftSlot, rightSlot, leftFinished, rightFinished]
    rw [Nat.add_comm, List.singleton_append, finishAll, waits]
    simp only [tree]
  sound := by
    refine ⟨fun other tree found => ?_, fun place child finished content => ?_⟩
    · rw [get_set] at found
      by_cases same : other = index
      · rw [if_pos same] at found
        cases found
        exact same ▸ unfolds
      · rw [if_neg same] at found
        exact sound.unfolds other tree found
    · rw [get_set] at finished ⊢
      by_cases childSame : child = index
      · rw [if_pos childSame]
        rfl
      rw [if_neg childSame]
      by_cases same : place.index = index
      · rcases place with ⟨side, target⟩
        cases same
        cases side with
        | left =>
            cases leftSlot.symm.trans content
            rw [show built.get child = some leftTree from leftFinished]
            rfl
        | right =>
            cases rightSlot.symm.trans content
            rw [show built.get child = some rightTree from rightFinished]
            rfl
      · rw [if_neg same] at finished
        exact sound.closed place child finished content
  keeps other tree found := by
    rw [get_set]
    by_cases same : other = index
    · rw [if_pos same, ← unfolds.unique (sound.unfolds index tree (same ▸ found))]
    · rw [if_neg same, found]
  small other tree found := by
    rw [get_set] at found
    by_cases same : other = index
    · rw [if_pos same] at found
      cases found
      exact .inr (Nat.le_refl _)
    · rw [if_neg same] at found
      exact .inl found
  cost := by
    rw [unbuilt_set, List.length_singleton]
    split <;> omega

/-- A waiting child is finished, also if other operators have been finished in between. -/
theorem exists_finishes_unfinished {place : Place count} {child : Child count} {tree : Tree}
    (content : table.slot place = some child) (unfolds : table.Unfolds child tree)
    (keeps : ∀ index tree, built.get index = some tree → next.get index = some tree)
    (sound : table.IsSound built) (nextSound : table.IsSound next)
    (step : ∀ index, child = .operator index → ∃ steps last,
      table.Finishes [index] next last (sizeOf tree) steps ∧ last.get index = some tree) :
    ∃ steps last, table.Finishes (table.unfinished built place) next last (sizeOf tree) steps ∧
      childTree? last child = some tree := by
  cases waits : table.unfinished built place with
  | nil =>
      have finished := childTree?_of_unfinished_eq_nil sound content unfolds waits
      refine ⟨0, next, .nil nextSound _, ?_⟩
      cases child with
      | operand text => exact finished
      | operator index => exact keeps index tree finished
  | cons first rest =>
      cases child with
      | operand text => simp [unfinished, content] at waits
      | operator index =>
          obtain ⟨steps, last, finishes, found⟩ := step index rfl
          have only : first :: rest = [index] := by
            rw [← waits, unfinished, content]
            cases missing : built.get index with
            | none => simp [missing]
            | some other => simp [unfinished, content, missing] at waits
          exact ⟨steps, last, only ▸ finishes, found⟩

theorem childTree?_of_keeps (keeps : ∀ index tree, built.get index = some tree →
    next.get index = some tree) {child : Child count} {tree : Tree}
    (finished : childTree? built child = some tree) : childTree? next child = some tree := by
  cases child with
  | operand text => exact finished
  | operator index => exact keeps index tree finished

theorem length_unfinished_le (table : LinkTable tokens) (built : Built count)
    (place : Place count) :
    (table.unfinished built place).length ≤ 1 := by
  unfold unfinished
  split
  · split <;> simp
  · simp

/-- A finished operator does not wait. -/
theorem waiting_eq_nil_of_isSome (sound : table.IsSound built) {index : Fin count}
    (finished : (built.get index).isSome) : table.waiting built index = [] := by
  have empty (side : Side) : table.unfinished built ⟨side, index⟩ = [] := by
    unfold unfinished
    split
    · rename_i child content
      have childFinished := sound.closed ⟨side, index⟩ child finished content
      rw [if_neg]
      rw [Option.isNone_iff_eq_none]
      exact Option.isSome_iff_ne_none.1 childFinished
    · rfl
  rw [waiting, empty, empty, List.append_nil]

theorem finishAll_nil (steps : Nat) : table.finishAll steps [] built = some built := by
  cases steps <;> rfl

/-- An operator that waits is finished right after the operators that it waits for. -/
theorem finishes_of_waiting {index : Fin count} {tree : Tree} {size steps : Nat}
    (waits : table.waiting built index ≠ [])
    (front : table.Finishes (table.waiting built index) built next size steps)
    (missing : next.get index = none) (small : size ≤ sizeOf tree)
    (finishing : table.Finishes [index] next (next.set index (some tree) index.isLt)
      (sizeOf tree) 1) :
    table.Finishes [index] built (next.set index (some tree) index.isLt) (sizeOf tree)
      (steps + 2) where
  run more agenda := by
    obtain ⟨first, rest, row⟩ := List.exists_cons_of_ne_nil waits
    have expand : table.finishAll (steps + 2 + more) ([index] ++ agenda) built =
        table.finishAll (steps + (1 + more)) (table.waiting built index ++ index :: agenda)
          built := by
      rw [show steps + 2 + more = steps + (1 + more) + 1 by omega, List.singleton_append, finishAll,
        row]
    rw [expand, front.run]
    exact finishing.run more agenda
  sound := finishing.sound
  keeps other tree found := finishing.keeps other tree (front.keeps other tree found)
  small other otherTree found := by
    rcases finishing.small other otherTree found with earlier | bound
    · exact (front.small other otherTree earlier).imp_right fun bound => Nat.le_trans bound small
    · exact .inr bound
  cost := by
    have frontCost := front.cost
    have length : (table.waiting built index).length ≤ 2 := by
      have left := table.length_unfinished_le built ⟨.left, index⟩
      have right := table.length_unfinished_le built ⟨.right, index⟩
      rw [waiting, List.length_append]
      omega
    have counted : 0 < unbuilt next := Finset.card_pos.2 ⟨index, by simp [missing]⟩
    rw [unbuilt_set, missing, List.length_singleton, if_pos Option.isNone_none]
    omega

/-- An operator at the head of the agenda gets the tree that it unfolds to. -/
theorem exists_finishes {child : Child count} {tree : Tree} (unfolds : table.Unfolds child tree) :
    ∀ index, child = .operator index → ∀ built, table.IsSound built → ∃ steps next,
      table.Finishes [index] built next (sizeOf tree) steps ∧ next.get index = some tree := by
  induction unfolds with
  | operand text => exact nofun
  | @operator index left right leftTree rightTree leftSlot rightSlot leftUnfolds rightUnfolds
      leftStep rightStep =>
      rintro _ ⟨⟩ built sound
      have whole := Unfolds.operator leftSlot rightSlot leftUnfolds rightUnfolds
      obtain ⟨rightSteps, middle, rightFinishes, rightFinished⟩ :=
        exists_finishes_unfinished rightSlot rightUnfolds (fun _ _ found => found) sound sound
          fun other same => rightStep other same built sound
      obtain ⟨leftSteps, last, leftFinishes, leftFinished⟩ :=
        exists_finishes_unfinished leftSlot leftUnfolds rightFinishes.keeps sound
          rightFinishes.sound fun other same => leftStep other same middle rightFinishes.sound
      have front := rightFinishes.append leftFinishes (Nat.le_max_right _ _) (Nat.le_max_left _ _)
      have finishing := finishes_of_children leftFinishes.sound leftSlot rightSlot leftFinished
        (childTree?_of_keeps leftFinishes.keeps rightFinished) whole
      have smaller : max (sizeOf leftTree) (sizeOf rightTree) <
          sizeOf (Tree.node (tokens.get index) leftTree rightTree) := by
        rw [Tree.node.sizeOf_spec]
        omega
      by_cases waits : table.waiting built index = []
      · obtain ⟨rightNil, leftNil⟩ := List.append_eq_nil_iff.1 waits
        exact ⟨1, _, finishes_of_children sound leftSlot rightSlot
          (childTree?_of_unfinished_eq_nil sound leftSlot leftUnfolds leftNil)
          (childTree?_of_unfinished_eq_nil sound rightSlot rightUnfolds rightNil) whole,
          by rw [get_set, if_pos rfl]⟩
      · have missing : last.get index = none := by
          rw [← Option.not_isSome_iff_eq_none]
          intro finished
          obtain ⟨tree, found⟩ := Option.isSome_iff_exists.1 finished
          -- Its tree would be too large to be new, and an old tree ends the waiting.
          have same := (leftFinishes.sound.unfolds index tree found).unique whole
          rcases front.small index tree found with earlier | small
          · exact waits (waiting_eq_nil_of_isSome sound (by rw [earlier]; rfl))
          · rw [same] at small
            omega
        exact ⟨_, _, finishes_of_waiting waits front missing (Nat.le_of_lt smaller) finishing,
          by rw [get_set, if_pos rfl]⟩

/-- Before the first step no tree is finished. -/
theorem isSound_replicate (table : LinkTable tokens) :
    table.IsSound (Vector.replicate count none) where
  unfolds index tree found := by
    rw [get_replicate] at found
    cases found
  closed place child found := by
    rw [get_replicate] at found
    cases found

theorem unbuilt_replicate (count : Nat) : unbuilt (Vector.replicate count none) = count := by
  have all : (Finset.univ.filter fun index : Fin count =>
      ((Vector.replicate count (none : Option Tree)).get index).isNone) = Finset.univ := by
    apply Finset.filter_true_of_mem
    intro index _
    rw [get_replicate]
    rfl
  rw [unbuilt, all, Finset.card_univ, Fintype.card_fin]

/-- The steps are enough to finish every operator that has an unfolding, and no further step is
made. -/
theorem exists_built_of_unfolds {index : Fin count} {tree : Tree}
    (unfolds : table.Unfolds (.operator index) tree) :
    ∃ built : Built count, built.get index = some tree ∧ ∀ more,
      table.finishAll (agendaSteps count + more) [index] (Vector.replicate count none) =
        some built := by
  obtain ⟨steps, next, finishes, found⟩ :=
    exists_finishes unfolds index rfl _ table.isSound_replicate
  have cost := finishes.cost
  rw [unbuilt_replicate, List.length_singleton] at cost
  refine ⟨next, found, fun more => ?_⟩
  have enough : agendaSteps count + more = steps + (agendaSteps count - steps + more) := by
    rw [agendaSteps]
    omega
  have run := finishes.run (agendaSteps count - steps + more) []
  rw [← enough, List.append_nil] at run
  rw [run, finishAll_nil]

/-- The tree of an operator that has an unfolding is the unfolding. -/
theorem treeAt?_of_unfolds {index : Fin count} {tree : Tree}
    (unfolds : table.Unfolds (.operator index) tree) : table.treeAt? index = some tree := by
  obtain ⟨built, found, run⟩ := exists_built_of_unfolds unfolds
  have ended := run 0
  rw [Nat.add_zero] at ended
  rw [treeAt?, ended]
  exact found

end LinkTable

end PolishNotation
