import PolishNotation.CommandLine.Contribution
import PolishNotation.Proofs.Memo

namespace PolishNotation.CommandLine

namespace Part

variable {options : Options}

@[simp] theorem lines_withoutEvents (part : Part) : part.withoutEvents.lines = part.lines := rfl

@[simp] theorem failed_withoutEvents (part : Part) : part.withoutEvents.failed = part.failed := rfl

@[simp] theorem diagnostics_withoutEvents (part : Part) :
    part.withoutEvents.diagnostics = part.failures := rfl

theorem withoutEvents_append (first second : Part) :
    (first.append second).withoutEvents = first.withoutEvents.append second.withoutEvents := by
  simp [withoutEvents, failures, append]

/-- Without its events a result leaves only its lines or its failure. -/
theorem withoutEvents_ofResult (options : Options) (events : List Event)
    (result : Except Text (List Text)) :
    (ofResult (shown options events) result).withoutEvents = ofResult [] result := by
  have removed : (shown options events).filter Diagnostic.isFailure = [] := by
    rw [List.filter_eq_nil_iff]
    intro diagnostic member
    unfold shown at member
    split at member
    · obtain ⟨event, -, rfl⟩ := List.mem_map.1 member
      nofun
    · cases member
  cases result with
  | ok lines => simp [withoutEvents, failures, ofResult, removed]
  | error message => simp [withoutEvents, failures, ofResult, removed, Diagnostic.isFailure]

end Part

variable {options : Options} {memo : Memo}

/-- Whatever a faithful memo knows, an expression contributes the same besides its events, and all of
these belong to its conversion. -/
theorem exists_expressionPart (options : Options) (faithful : memo.IsFaithful) (expression : Text) :
    ∃ events next, events ⊆ Conversion.events expression ∧ next.IsFaithful ∧
      expressionPart options memo expression =
        (.ofResult (Part.shown options events) (linesOrMessage options expression), next) := by
  have nothing : Part.shown options [] = [] := by
    unfold Part.shown
    split <;> rfl
  unfold expressionPart linesOrMessage
  split
  · exact ⟨[], memo, List.nil_subset _, faithful, by rw [nothing]; rfl⟩
  · split
    · refine ⟨(Conversion.report expression).events, memo, List.Subset.refl _, faithful, ?_⟩
      rfl
    · have converts := memo.converts_convert expression
      refine ⟨(memo.convert expression).1.events, (memo.convert expression).2,
        converts.events_subset, faithful.of_converts converts, ?_⟩
      have result := faithful.result_eq converts
      unfold convertPart
      dsimp only
      rw [result, toPostfix]
      cases Conversion.ofText expression <;> rfl

/-- The memo of a run is never noticed: without its events the run is made of contributions. -/
theorem withoutEvents_expressionParts (options : Options) (faithful : memo.IsFaithful)
    (expressions : List Text) :
    (expressionParts options memo expressions).withoutEvents =
      .concat (expressions.map (contribution options)) := by
  induction expressions generalizing memo with
  | nil => rfl
  | cons expression rest ih =>
      obtain ⟨events, next, -, nextFaithful, same⟩ :=
        exists_expressionPart options faithful expression
      rw [expressionParts, same]
      dsimp only
      rw [Part.withoutEvents_append, Part.withoutEvents_ofResult, ih nextFaithful, List.map_cons,
        Part.concat_cons, contribution]

/-- A silent run has no events, so it is made of contributions. -/
theorem expressionParts_of_silent (silent : options.verbose = false) (faithful : memo.IsFaithful)
    (expressions : List Text) :
    expressionParts options memo expressions =
      .concat (expressions.map (contribution options)) := by
  induction expressions generalizing memo with
  | nil => rfl
  | cons expression rest ih =>
      obtain ⟨events, next, -, nextFaithful, same⟩ :=
        exists_expressionPart options faithful expression
      have nothing : Part.shown options events = [] := if_neg (by simp [silent])
      rw [expressionParts, same, nothing]
      dsimp only
      rw [ih nextFaithful, List.map_cons, Part.concat_cons, contribution]

/-- A converted expression writes its result and, if it is traced, the lines of the trace. -/
theorem lines_contribution (forward : options.reverse = false) (expression : Text) :
    (contribution options expression).lines =
      match Conversion.ofText expression with
      | .error _ => []
      | .ok conversion => resultLine expression conversion.output ::
          if options.trace then traceLines conversion else [] := by
  rw [contribution, linesOrMessage, if_neg (by simp [forward])]
  cases Conversion.ofText expression <;> rfl

/-- The lines of a trace name the operands, the operators and the tree. -/
theorem writtenLines_traceLines (conversion : Conversion) :
    writtenLines (traceLines conversion) =
      "  operands  ".toList ++ conversion.expression.operands ++ "\n".toList ++
      "  operators ".toList ++
        ", ".toList.intercalate (conversion.expression.tokens.map Token.text) ++ "\n".toList ++
      "  tree\n".toList ++
      (Text.lines conversion.tree.drawing).flatMap fun line =>
        "    ".toList ++ line ++ "\n".toList := by
  rw [writtenLines, traceLines, List.flatMap_append, List.flatMap_map]
  simp [List.flatMap_cons]

/-- Reading back writes the same whether it is traced or not. -/
theorem contribution_trace_of_reverse (backward : options.reverse = true) (expression : Text) :
    contribution { options with trace := true } expression = contribution options expression := by
  rw [contribution, contribution, linesOrMessage, linesOrMessage, if_pos backward, if_pos backward]

/-- A trace changes neither failures nor successes. -/
theorem failed_contribution_trace (options : Options) (expression : Text) :
    (contribution { options with trace := true } expression).failed =
      (contribution options expression).failed := by
  by_cases backward : options.reverse = true
  · rw [contribution_trace_of_reverse backward]
  · simp only [contribution, linesOrMessage, if_neg backward]
    cases Conversion.ofText expression <;> rfl

end PolishNotation.CommandLine
