import Mathlib.Data.List.Sort
import PolishNotation.Grammar.Parentheses
import PolishNotation.Proofs.Grammar.Parentheses

namespace PolishNotation

namespace Grammar

variable {text before inner rest : Text} {opened : List Nat} {place : Nat}

/-- No beginning of a balanced text closes more groups than it opens. -/
theorem Balanced.netDepth_nonneg (balanced : Balanced text) {front back : Text}
    (same : text = front ++ back) : 0 ≤ netDepth front := by
  induction balanced generalizing front back with
  | nil =>
      rw [(List.append_eq_nil_iff.1 same.symm).1]
      decide
  | @plain character rest opening closing balanced ih =>
      rcases List.cons_eq_append_iff.1 same with ⟨rfl, -⟩ | ⟨front, rfl, behind⟩
      · decide
      · rw [← List.singleton_append, netDepth_append, netDepth_of_ne opening closing, Int.zero_add]
        exact ih behind
  | @group inner rest innerBalanced restBalanced innerStep restStep =>
      rcases List.cons_eq_append_iff.1 same with ⟨rfl, -⟩ | ⟨front, rfl, behind⟩
      · decide
      rw [← List.singleton_append, netDepth_append, netDepth_opening]
      rcases List.append_eq_append_iff.1 behind with ⟨middle, rfl, ending⟩ | ⟨middle, same, -⟩
      · rw [netDepth_append, innerBalanced.netDepth_eq_zero]
        rcases List.cons_eq_append_iff.1 ending with ⟨rfl, -⟩ | ⟨middle, rfl, last⟩
        · decide
        · have later := restStep last
          rw [← List.singleton_append, netDepth_append, netDepth_closing]
          omega
      · have inside := innerStep same
        omega

/-- Nothing closes a group inside a balanced text that does not open it. -/
theorem Balanced.ne_append_closing (balanced : Balanced text) (inside : Balanced inner) :
    text ≠ inner ++ Expression.closing :: rest := by
  intro same
  rw [List.append_cons] at same
  have bound := balanced.netDepth_nonneg same
  rw [netDepth_append, inside.netDepth_eq_zero, netDepth_closing] at bound
  omega

/-- Every open parenthesis of a balanced text is closed in the text. -/
theorem Balanced.exists_match {front back : Text}
    (balanced : Balanced (front ++ Expression.opening :: back)) :
    ∃ inner rest, Balanced inner ∧ back = inner ++ Expression.closing :: rest := by
  generalize same : front ++ Expression.opening :: back = text at balanced
  induction balanced generalizing front back with
  | nil => simp at same
  | @plain character rest opening closing balanced ih =>
      rcases List.cons_eq_append_iff.1 same.symm with ⟨-, first⟩ | ⟨front, rfl, behind⟩
      · exact absurd (List.cons.inj first).1.symm opening
      · exact ih behind.symm
  | @group inner rest innerBalanced restBalanced innerStep restStep =>
      rcases List.cons_eq_append_iff.1 same.symm with ⟨-, first⟩ | ⟨front, rfl, behind⟩
      · exact ⟨inner, rest, innerBalanced, (List.cons.inj first).2⟩
      rcases append_eq_append_cons_iff.1 behind with ⟨middle, rfl, rfl⟩ | ⟨middle, rfl, ending⟩
      · obtain ⟨content, more, contentBalanced, rfl⟩ := innerStep rfl
        exact ⟨content, more ++ Expression.closing :: rest, contentBalanced, by simp⟩
      · rcases List.cons_eq_append_iff.1 ending with ⟨-, first⟩ | ⟨middle, rfl, last⟩
        · exact absurd (List.cons.inj first).1.symm Expression.closing_isPlain.2.2.2
        · exact restStep last.symm

/-- A group that is closed in front of an open parenthesis or behind it is closed in front of it. -/
theorem Balanced.closes_before {content middle : Text} (balanced : Balanced content)
    (inside : Balanced inner)
    (same : middle ++ Expression.opening :: inner = content ++ Expression.closing :: rest) :
    ∃ more, middle = content ++ Expression.closing :: more := by
  rcases append_eq_append_cons_iff.1 same with ⟨more, closed, -⟩ | ⟨more, rfl, ending⟩
  · exact ⟨more, closed⟩
  rcases List.cons_eq_append_iff.1 ending with ⟨-, first⟩ | ⟨more, rfl, last⟩
  · exact absurd (List.cons.inj first).1 Expression.closing_isPlain.2.2.2
  · -- The open parenthesis would have its partner in the content, and so in the balanced part.
    obtain ⟨group, next, groupBalanced, rfl⟩ := balanced.exists_match
    rw [List.append_assoc] at last
    exact absurd last (inside.ne_append_closing groupBalanced)

/-- The parentheses at these indices, the innermost first, are open at the end of the text, and the
parts between them are balanced. -/
inductive Opens : Text → List Nat → Prop where
  | balanced {text : Text} (balanced : Balanced text) : Opens text []
  | opening {before inner : Text} {outer : List Nat} (opens : Opens before outer)
      (balanced : Balanced inner) :
      Opens (before ++ Expression.opening :: inner) (before.length :: outer)

namespace Opens

theorem append (opens : Opens text opened) (balanced : Balanced rest) :
    Opens (text ++ rest) opened := by
  cases opens with
  | balanced front => exact .balanced (front.append balanced)
  | opening outer inside => simpa using Opens.opening outer (inside.append balanced)

/-- A closed parenthesis matches the innermost open one. -/
theorem close {outer : List Nat} (opens : Opens text (place :: outer)) :
    Opens (text ++ [Expression.closing]) outer := by
  cases opens with
  | opening opens inside => simpa using opens.append (.group inside .nil)

theorem lt_length (opens : Opens text opened) : ∀ place ∈ opened, place < text.length := by
  induction opens with
  | balanced balanced => nofun
  | opening opens inside ih =>
      intro place member
      rw [List.length_append, List.length_cons]
      rcases List.mem_cons.1 member with rfl | outer
      · omega
      · have bound := ih place outer
        omega

/-- The open parentheses of a text are its unmatched ones. -/
theorem mem_iff (opens : Opens text opened) : place ∈ opened ↔ Unmatched text place := by
  induction opens with
  | @balanced text balanced =>
      refine ⟨nofun, ?_⟩
      rintro ⟨front, back, rfl, -, open_⟩
      obtain ⟨inner, rest, inside, same⟩ := balanced.exists_match
      exact absurd same (open_ inner rest inside)
  | @opening before inner outer opens inside ih =>
      rw [List.mem_cons, ih]
      constructor
      · rintro (rfl | ⟨front, back, rfl, rfl, open_⟩)
        · exact ⟨before, inner, rfl, rfl, fun content rest balanced =>
            inside.ne_append_closing balanced⟩
        · refine ⟨front, back ++ Expression.opening :: inner, by simp, rfl, ?_⟩
          intro content rest balanced same
          obtain ⟨more, closed⟩ := balanced.closes_before inside same
          exact open_ content more balanced closed
      · rintro ⟨front, back, same, rfl, open_⟩
        rcases append_eq_append_cons_iff.1 same with ⟨middle, rfl, rfl⟩ | ⟨middle, rfl, ending⟩
        · refine .inr ⟨front, middle, rfl, rfl, fun content rest balanced closed => ?_⟩
          exact open_ content (rest ++ Expression.opening :: inner) balanced (by simp [closed])
        rcases List.cons_eq_append_iff.1 ending with ⟨rfl, -⟩ | ⟨middle, rfl, last⟩
        · exact .inl (by simp)
        · obtain ⟨content, rest, balanced, closed⟩ := (last ▸ inside).exists_match
          exact absurd closed (open_ content rest balanced)

/-- The innermost open parenthesis is the last unmatched one. -/
theorem head?_eq_some_iff (opens : Opens text opened) :
    opened.head? = some place ↔ LastUnmatched text place := by
  cases opens with
  | balanced balanced =>
      have nothing (place : Nat) : place ∈ [] ↔ Unmatched _ place :=
        (Opens.balanced balanced).mem_iff
      simp only [List.not_mem_nil, false_iff] at nothing
      simp [LastUnmatched, nothing]
  | @opening before inner outer opens inside =>
      have member (place : Nat) : place ∈ before.length :: outer ↔ Unmatched _ place :=
        (Opens.opening opens inside).mem_iff
      have highest : ∀ other ∈ before.length :: outer, other ≤ before.length :=
        List.forall_mem_cons.2
          ⟨Nat.le_refl _, fun other later => Nat.le_of_lt (opens.lt_length other later)⟩
      rw [List.head?_cons, Option.some_inj]
      constructor
      · rintro rfl
        exact ⟨(member _).1 List.mem_cons_self,
          fun other open_ => highest other ((member other).2 open_)⟩
      · rintro ⟨open_, last⟩
        have lower := last _ ((member _).1 List.mem_cons_self)
        have upper := highest place ((member place).2 open_)
        omega

/-- The open parentheses are listed from the last to the first. -/
theorem falling (opens : Opens text opened) : opened.Pairwise (· > ·) := by
  induction opens with
  | balanced => exact .nil
  | opening opens inside ih => exact List.pairwise_cons.2 ⟨opens.lt_length, ih⟩

/-- A text determines its open parentheses. -/
theorem unique {other : List Nat} (one : Opens text opened) (second : Opens text other) :
    opened = other :=
  one.falling.eq_of_mem_iff second.falling fun place => by rw [one.mem_iff, second.mem_iff]

/-- As long as the innermost parenthesis is open, so are all the others. -/
theorem eq_of_head? {further : List Nat} (opens : Opens text opened)
    (later : Opens (text ++ rest) further) (same : opened.head? = further.head?) :
    opened = further := by
  cases opens with
  | balanced => exact (List.head?_eq_none_iff.1 same.symm).symm
  | @opening before inner outer opens inside =>
      generalize whole : before ++ Expression.opening :: inner ++ rest = extended at later
      cases later with
      | balanced => cases same
      | @opening longer content enclosing laterOpens laterInside =>
          -- Both texts agree in front of the innermost parenthesis, and so do the outer ones.
          obtain length : before.length = longer.length := Option.some.inj same
          rw [List.append_assoc] at whole
          obtain ⟨rfl, -⟩ := List.append_inj whole length
          rw [opens.unique laterOpens]

end Opens

variable {after : Text} {character : Char} {pair : Pair}

/-- A matching pair encloses a place exactly if its open parenthesis is unmatched in front of it. -/
theorem Pair.encloses_iff (matching : pair.Matches (before ++ character :: after))
    (noClosing : character ≠ Expression.closing) :
    pair.Encloses before.length ↔ Unmatched before pair.first := by
  obtain ⟨front, inner, back, same, inside, first, last⟩ := matching
  rw [Encloses, first, last]
  rw [List.append_assoc, List.cons_append] at same
  constructor
  · rintro ⟨lower, upper⟩
    rcases append_eq_append_cons_iff.1 same with ⟨middle, rfl, rest⟩ | ⟨middle, rfl, -⟩
    · refine ⟨front, middle, rfl, rfl, ?_⟩
      rcases append_eq_append_cons_iff.1 rest with ⟨more, rfl, -⟩ | ⟨more, rfl, -⟩
      · intro content next balanced closed
        rw [closed, List.append_assoc] at inside
        exact inside.ne_append_closing balanced rfl
      · simp at upper
        omega
    · simp at lower
      omega
  · rintro ⟨front', middle, rfl, sameLength, open_⟩
    rw [List.append_assoc] at same
    obtain ⟨rfl, rest⟩ := List.append_inj same sameLength
    rw [List.cons_append, List.cons_inj_right] at rest
    rcases append_eq_append_cons_iff.1 rest with ⟨more, closed, -⟩ | ⟨more, rfl, ending⟩
    · exact absurd closed (open_ inner more inside)
    rcases List.cons_eq_append_iff.1 ending with ⟨-, closing⟩ | ⟨more, rfl, -⟩
    · exact absurd (List.cons.inj closing).1.symm noClosing
    · simp
      omega

/-- Every parenthesis that is unmatched in front of a place is matched in a balanced text. -/
theorem exists_pair_of_unmatched (balanced : Balanced (before ++ rest))
    (open_ : Unmatched before place) :
    ∃ pair : Pair, pair.Matches (before ++ rest) ∧ pair.first = place := by
  obtain ⟨front, back, rfl, rfl, -⟩ := open_
  rw [List.append_assoc, List.cons_append] at balanced ⊢
  obtain ⟨inner, more, inside, same⟩ := balanced.exists_match
  exact ⟨⟨front.length, front.length + 1 + inner.length⟩,
    ⟨front, inner, more, by simp [same], inside, rfl, rfl⟩, rfl⟩

/-- In a balanced text the innermost pair around a place starts at the last parenthesis that is
unmatched in front of the place. -/
theorem Pair.isInnermost_iff (balanced : Balanced (before ++ character :: after))
    (noClosing : character ≠ Expression.closing) :
    pair.IsInnermost (before ++ character :: after) before.length ↔
      pair.Matches (before ++ character :: after) ∧ LastUnmatched before pair.first := by
  rw [IsInnermost, and_congr_right_iff]
  intro matching
  rw [encloses_iff matching noClosing, LastUnmatched, and_congr_right_iff]
  intro open_
  constructor
  · intro innermost other otherOpen
    obtain ⟨found, foundMatches, rfl⟩ := exists_pair_of_unmatched balanced otherOpen
    exact innermost found foundMatches ((encloses_iff foundMatches noClosing).2 otherOpen)
  · intro last other otherMatches encloses
    exact last other.first ((encloses_iff otherMatches noClosing).1 encloses)

namespace Opens

/-- The innermost pair around a place starts at the innermost open parenthesis. -/
theorem isInnermost_iff (opens : Opens before opened) (balanced : Balanced text)
    (place : text = before ++ character :: after) (noClosing : character ≠ Expression.closing) :
    pair.IsInnermost text before.length ↔
      pair.Matches text ∧ opened.head? = some pair.first := by
  subst place
  rw [Pair.isInnermost_iff balanced noClosing, opens.head?_eq_some_iff]

/-- No pair encloses a place exactly if no parenthesis is open in front of it. -/
theorem forall_not_encloses_iff (opens : Opens before opened) (balanced : Balanced text)
    (place : text = before ++ character :: after) (noClosing : character ≠ Expression.closing) :
    (∀ pair : Pair, pair.Matches text → ¬ pair.Encloses before.length) ↔ opened = [] := by
  subst place
  constructor
  · intro outside
    by_contra some
    obtain ⟨start, member⟩ := List.exists_mem_of_ne_nil opened some
    have open_ := opens.mem_iff.1 member
    obtain ⟨pair, matching, rfl⟩ := exists_pair_of_unmatched balanced open_
    exact outside pair matching ((Pair.encloses_iff matching noClosing).2 open_)
  · rintro rfl pair matching encloses
    have member := opens.mem_iff.2 ((Pair.encloses_iff matching noClosing).1 encloses)
    cases member

end Opens

/-- Two operators stand directly between the same parentheses exactly if the innermost open parenthesis
in front of them is the same. -/
theorem samePair_iff {front back : Text} {otherOpened : List Nat} {first second : Operator}
    {depth otherDepth : Int} (opens : Opens before opened) (otherOpens : Opens front otherOpened)
    (balanced : Balanced text) (place : text = before ++ first.symbol :: after)
    (otherPlace : text = front ++ second.symbol :: back) :
    SamePair text (.ofOperator first depth before.length)
        (.ofOperator second otherDepth front.length) ↔
      opened.head? = otherOpened.head? := by
  have innermost (pair : Pair) : pair.IsInnermost text before.length ↔
      pair.Matches text ∧ opened.head? = some pair.first :=
    opens.isInnermost_iff balanced place first.symbol_isPlain.2.2.2
  have otherInnermost (pair : Pair) : pair.IsInnermost text front.length ↔
      pair.Matches text ∧ otherOpened.head? = some pair.first :=
    otherOpens.isInnermost_iff balanced otherPlace second.symbol_isPlain.2.2.2
  have outermost := opens.forall_not_encloses_iff balanced place first.symbol_isPlain.2.2.2
  have otherOutermost :=
    otherOpens.forall_not_encloses_iff balanced otherPlace second.symbol_isPlain.2.2.2
  constructor
  · rintro (⟨pair, one, other⟩ | outside)
    · rw [((innermost pair).1 one).2, ((otherInnermost pair).1 other).2]
    · rw [outermost.1 fun pair matching => (outside pair matching).1,
        otherOutermost.1 fun pair matching => (outside pair matching).2]
  · intro same
    cases opened with
    | nil =>
        have otherNone : otherOpened = [] := List.head?_eq_none_iff.1 same.symm
        exact .inr fun pair matching =>
          ⟨outermost.2 rfl pair matching, otherOutermost.2 otherNone pair matching⟩
    | cons start outer =>
        obtain ⟨pair, matching, rfl⟩ : ∃ pair : Pair, pair.Matches text ∧ pair.first = start := by
          rw [place] at balanced ⊢
          exact exists_pair_of_unmatched balanced (opens.mem_iff.1 List.mem_cons_self)
        exact .inl ⟨pair, (innermost pair).2 ⟨matching, rfl⟩,
          (otherInnermost pair).2 ⟨matching, same.symm⟩⟩

end Grammar

namespace Reader

open Grammar

variable {reader next last : Reader} {text : Text} {character : Char}

/-- The positions that the reader keeps are the open parentheses of the text so far. -/
theorem opens_of_moves (before : Opens text reader.opened)
    (moves : reader.Moves text.length character next) :
    Opens (text ++ [character]) next.opened := by
  cases moves with
  | blank blank =>
      have plain := ne_parenthesis_of_isBlank blank
      exact before.append (.plain plain.1 plain.2 .nil)
  | operand letter =>
      have plain := ne_parenthesis_of_isLetter letter
      exact before.append (.plain plain.1 plain.2 .nil)
  | opening => exact .opening before .nil
  | closing opened => exact (opened ▸ before).close
  | operator operator =>
      have plain := operator.symbol_isPlain.2.2
      exact before.append (.plain plain.1 plain.2 .nil)

theorem opens_of_run (read : start.run 0 text = .ok last) : Opens text last.opened :=
  run_invariant (fun reader text => Opens text reader.opened) [] opens_of_moves (.balanced .nil) read

end Reader

/-- A text that can be read is balanced, blank characters included. -/
theorem Expression.balanced_of_ofText {text : Text} {expression : Expression}
    (read : ofText text = .ok expression) : Grammar.Balanced text := by
  obtain ⟨reader, run, closed, -, -⟩ := ofText_eq_ok_iff_run.1 read
  have opens := Reader.opens_of_run run
  rw [closed] at opens
  cases opens with
  | balanced balanced => exact balanced

end PolishNotation
