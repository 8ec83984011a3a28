import PolishNotation.Proofs.CommandLine.Arguments
import PolishNotation.Proofs.CommandLine.Diagnostics

namespace PolishNotation.CommandLine

theorem Part.exitCode_outcome_eq_one_iff (part : Part) :
    part.outcome.exitCode = 1 ↔ part.failed = true := by
  show (if part.failed then (1 : UInt8) else 0) = 1 ↔ part.failed = true
  cases part.failed <;> decide

/-- The outcome of parts that follow each other is made of their outcomes. -/
theorem Part.outcome_concat (parts : List Part) :
    (concat parts).outcome = .concat (parts.map outcome) := by
  have output : writtenLines (concat parts).lines = (parts.map outcome).flatMap Outcome.output := by
    rw [concat, writtenLines_flatMap, List.flatMap_map]
    rfl
  have diagnostics : writtenLines ((concat parts).diagnostics.map Diagnostic.line) =
      (parts.map outcome).flatMap Outcome.diagnostics := by
    rw [concat, List.map_flatMap, writtenLines_flatMap, List.flatMap_map]
    rfl
  have failing : (concat parts).failed = true ↔
      ∃ single ∈ parts.map outcome, single.exitCode = 1 := by
    rw [concat, List.any_eq_true]
    constructor
    · intro ⟨part, member, failed⟩
      exact ⟨_, List.mem_map_of_mem member, part.exitCode_outcome_eq_one_iff.2 failed⟩
    · intro ⟨single, member, failed⟩
      obtain ⟨part, present, rfl⟩ := List.mem_map.1 member
      exact ⟨part, present, part.exitCode_outcome_eq_one_iff.1 failed⟩
  rw [outcome, Outcome.concat, output, diagnostics]
  simp only [failing]

variable {options : Options} {expressions : List Text} {arguments : List Text}

/-- Expressions are run one after the other with a memo that is empty at first. -/
theorem runPart_of_ne_nil (options : Options) (some : expressions ≠ []) :
    runPart options expressions = expressionParts options .empty expressions :=
  if_neg (by simpa using some)

theorem withoutEvents_runPart (options : Options) (some : expressions ≠ []) :
    (runPart options expressions).withoutEvents =
      .concat (expressions.map (contribution options)) := by
  rw [runPart_of_ne_nil options some, withoutEvents_expressionParts options Memo.isFaithful_empty]

theorem runPart_of_silent (some : expressions ≠ []) (silent : options.verbose = false) :
    runPart options expressions = .concat (expressions.map (contribution options)) := by
  rw [runPart_of_ne_nil options some, expressionParts_of_silent silent Memo.isFaithful_empty]

theorem lines_runPart (options : Options) (some : expressions ≠ []) :
    (runPart options expressions).lines =
      expressions.flatMap fun expression => (contribution options expression).lines := by
  rw [← Part.lines_withoutEvents, withoutEvents_runPart options some]
  exact List.flatMap_map ..

theorem failures_runPart (options : Options) (some : expressions ≠ []) :
    (runPart options expressions).failures =
      expressions.flatMap fun expression => (contribution options expression).diagnostics := by
  rw [← Part.diagnostics_withoutEvents, withoutEvents_runPart options some]
  exact List.flatMap_map ..

theorem failed_runPart (options : Options) (some : expressions ≠ []) :
    (runPart options expressions).failed =
      expressions.any fun expression => (contribution options expression).failed := by
  rw [← Part.failed_withoutEvents, withoutEvents_runPart options some]
  exact List.any_map ..

theorem outcome_of_asked
    (asked : Invocation.ofTexts arguments = .ok (.convert options expressions)) :
    outcome arguments = (runPart options expressions).outcome := by
  rw [outcome, asked]

/-- A silent run of one expression writes lines and succeeds or writes one failure and fails. -/
theorem outcome_contribution (options : Options) (expression : Text) :
    (contribution options expression).outcome =
      match linesOrMessage options expression with
      | .ok lines => ⟨0, writtenLines lines, []⟩
      | .error message => ⟨1, [], writtenLines [(Diagnostic.failure message).line]⟩ := by
  unfold contribution
  cases linesOrMessage options expression <;> rfl

/-- A silent run leaves behind what the runs of its expressions alone leave behind one after the other.
A run of one expression succeeds with lines and without any diagnostic, or it fails without any line
and with one message. -/
theorem outcome_eq_concat {alone : Text → List Text}
    (asked : Invocation.ofTexts arguments = .ok (.convert options expressions))
    (some : expressions ≠ []) (silent : options.verbose = false)
    (askedAlone : ∀ expression ∈ expressions,
      Invocation.ofTexts (alone expression) = .ok (.convert options [expression])) :
    outcome arguments = .concat (expressions.map fun expression => outcome (alone expression)) ∧
      ∀ expression ∈ expressions,
        (∃ lines, linesOrMessage options expression = .ok lines ∧
          outcome (alone expression) = ⟨0, writtenLines lines, []⟩) ∨
        ∃ message, linesOrMessage options expression = .error message ∧
          outcome (alone expression) = ⟨1, [], writtenLines ["Error: ".toList ++ message]⟩ := by
  have single : ∀ expression ∈ expressions,
      outcome (alone expression) = (contribution options expression).outcome := by
    intro expression member
    rw [outcome_of_asked (askedAlone expression member),
      runPart_of_silent (List.cons_ne_nil _ _) silent]
    simp [Part.concat]
  constructor
  · rw [outcome_of_asked asked, runPart_of_silent some silent, Part.outcome_concat, List.map_map,
      List.map_congr_left single]
    rfl
  · intro expression member
    rw [single expression member, outcome_contribution]
    cases linesOrMessage options expression with
    | ok lines => exact .inl ⟨lines, rfl, rfl⟩
    | error message => exact .inr ⟨message, rfl, rfl⟩

/-- A failure between two runs of the same expression keeps its place. -/
theorem outcome_eq_concat_traced :
    let options : Options := ⟨false, true, false⟩
    let expressions : List Text := ["A*B".toList, "A+".toList, "A*B".toList]
    Invocation.ofTexts ("-t".toList :: expressions) = .ok (.convert options expressions) ∧
      outcome ("-t".toList :: expressions) =
        .concat (expressions.map fun expression => outcome (options.arguments [expression])) ∧
      outcome (options.arguments ["A+".toList]) =
        ⟨1, [], "Error: Position 2: Expression ends without an operand\n".toList⟩ := by
  intro options expressions
  have asked : Invocation.ofTexts ("-t".toList :: expressions) =
      .ok (.convert options expressions) := rfl
  obtain ⟨whole, single⟩ := outcome_eq_concat asked (List.cons_ne_nil _ _) rfl
    fun expression _ => Invocation.ofTexts_arguments options [expression]
  refine ⟨asked, whole, ?_⟩
  rcases single "A+".toList (by decide) with ⟨lines, converted, -⟩ | ⟨message, refused, failed⟩
  · cases converted
  · cases refused
    exact failed

/-- A run that reports events writes the same lines and fails for the same expressions. -/
theorem runPart_verbose (options : Options) (some : expressions ≠ []) :
    (runPart { options with verbose := true } expressions).lines =
        (runPart options expressions).lines ∧
      (runPart { options with verbose := true } expressions).failed =
        (runPart options expressions).failed := by
  have same : contribution { options with verbose := true } = contribution options := rfl
  simp only [lines_runPart _ some, failed_runPart _ some, same, and_self]

/-- A silent run has no diagnostics but its failures. -/
theorem diagnostics_runPart_of_silent (some : expressions ≠ []) (silent : options.verbose = false) :
    (runPart options expressions).diagnostics = (runPart options expressions).failures := by
  rw [failures_runPart options some, runPart_of_silent some silent]
  exact List.flatMap_map ..

/-- The failures are written as the messages of the faulty expressions. -/
theorem writtenLines_failures (options : Options) (some : expressions ≠ []) :
    writtenLines ((runPart options expressions).failures.map Diagnostic.line) =
      expressions.flatMap (errorText options) := by
  rw [failures_runPart options some, List.map_flatMap, writtenLines_flatMap]
  apply List.flatMap_congr
  intro expression _
  unfold contribution errorText
  cases linesOrMessage options expression with
  | ok lines => rfl
  | error message => exact List.append_nil _

theorem failed_runPart_trace (options : Options) (some : expressions ≠ []) :
    (runPart { options with trace := true } expressions).failed =
      (runPart options expressions).failed := by
  simp only [failed_runPart _ some, failed_contribution_trace]

/-- Reading back writes the same lines whether it is traced or not. -/
theorem lines_runPart_trace_of_reverse (backward : options.reverse = true) (some : expressions ≠ []) :
    (runPart { options with trace := true } expressions).lines =
      (runPart options expressions).lines := by
  simp only [lines_runPart _ some, contribution_trace_of_reverse backward]

theorem output_runPart_of_forward (options : Options) (forward : options.reverse = false)
    (some : expressions ≠ []) :
    (runPart options expressions).outcome.output = expressions.flatMap fun expression =>
      match Conversion.ofText expression with
      | .error _ => []
      | .ok conversion => expression ++ " => ".toList ++ conversion.output ++ "\n".toList ++
          writtenLines (if options.trace then traceLines conversion else []) := by
  rw [Part.outcome, lines_runPart options some, writtenLines_flatMap]
  apply List.flatMap_congr
  intro expression _
  rw [lines_contribution forward]
  cases Conversion.ofText expression <;> rfl

/-- Without the records of its log a run leaves the messages of its faulty expressions behind. -/
theorem withoutRecords_runPart (options : Options) (some : expressions ≠ []) :
    withoutRecords (runPart options expressions).outcome.diagnostics =
      expressions.flatMap (errorText options) := by
  have unbroken := feed_notMem_line_expressionParts options Memo.isFaithful_empty expressions
  rw [← runPart_of_ne_nil options some] at unbroken
  rw [Part.withoutRecords_outcome unbroken, writtenLines_failures options some]

/-- A silent run leaves nothing but these messages behind. -/
theorem diagnostics_outcome_runPart (some : expressions ≠ []) (silent : options.verbose = false) :
    (runPart options expressions).outcome.diagnostics =
      expressions.flatMap (errorText options) := by
  rw [← writtenLines_failures options some, ← diagnostics_runPart_of_silent some silent]
  rfl

/-- A trace changes no message. -/
theorem errorText_trace (options : Options) :
    errorText { options with trace := true } = errorText options := by
  funext expression
  unfold errorText linesOrMessage
  by_cases backward : options.reverse = true
  · rw [if_pos backward, if_pos backward]
  · rw [if_neg backward, if_neg backward]
    cases Conversion.ofText expression <;> rfl

/-- The switch for events keeps the output, and without the records of the log the messages of the
faulty expressions remain, which are all that a silent run leaves. The switch for traces keeps these
messages too. It keeps the output of a run that reads back, and behind the result of every other
conversion it adds the lines of the operands, the operators and the tree. -/
theorem outcome_of_further_switch {further : Options} {furtherArguments : List Text}
    (asked : Invocation.ofTexts arguments = .ok (.convert options expressions))
    (askedFurther : Invocation.ofTexts furtherArguments = .ok (.convert further expressions))
    (some : expressions ≠ []) :
    let messages : Text := expressions.flatMap fun expression =>
      match linesOrMessage options expression with
      | .ok _ => []
      | .error message => "Error: ".toList ++ message ++ "\n".toList
    (further = { options with verbose := true } ∨ further = { options with trace := true } →
        (outcome furtherArguments).exitCode = (outcome arguments).exitCode ∧
          withoutRecords (outcome furtherArguments).diagnostics = messages ∧
          withoutRecords (outcome arguments).diagnostics = messages ∧
          (further.verbose = false → (outcome furtherArguments).diagnostics = messages) ∧
          (options.verbose = false → (outcome arguments).diagnostics = messages)) ∧
      (further = { options with verbose := true } →
        (outcome furtherArguments).output = (outcome arguments).output) ∧
      (further = { options with trace := true } → options.reverse = true →
        (outcome furtherArguments).output = (outcome arguments).output) ∧
      (further = { options with trace := true } → options.trace = false → options.reverse = false →
        (outcome arguments).output = (expressions.flatMap fun expression =>
            match Conversion.ofText expression with
            | .error _ => []
            | .ok conversion => expression ++ " => ".toList ++ conversion.output ++ "\n".toList) ∧
          (outcome furtherArguments).output = expressions.flatMap fun expression =>
            match Conversion.ofText expression with
            | .error _ => []
            | .ok conversion =>
                expression ++ " => ".toList ++ conversion.output ++ "\n".toList ++
                "  operands  ".toList ++ conversion.expression.operands ++ "\n".toList ++
                "  operators ".toList ++
                  ", ".toList.intercalate (conversion.expression.tokens.map Token.text) ++
                  "\n".toList ++
                "  tree\n".toList ++
                (Text.lines conversion.tree.drawing).flatMap fun line =>
                  "    ".toList ++ line ++ "\n".toList) := by
  intro messages
  rw [outcome_of_asked asked, outcome_of_asked askedFurther]
  refine ⟨?_, ?_, ?_, ?_⟩
  · intro either
    have same : errorText further = errorText options ∧
        (runPart further expressions).failed = (runPart options expressions).failed := by
      cases either with
      | inl verbose => exact verbose ▸ ⟨rfl, (runPart_verbose options some).2⟩
      | inr trace => exact trace ▸ ⟨errorText_trace options, failed_runPart_trace options some⟩
    obtain ⟨texts, failed⟩ := same
    have furtherMessages : expressions.flatMap (errorText further) = messages := by rw [texts]; rfl
    refine ⟨?_, ?_, withoutRecords_runPart options some, ?_, diagnostics_outcome_runPart some⟩
    · rw [Part.outcome, Part.outcome, failed]
    · exact (withoutRecords_runPart further some).trans furtherMessages
    · exact fun silent => (diagnostics_outcome_runPart some silent).trans furtherMessages
  · intro verbose
    rw [verbose]
    exact congrArg writtenLines (runPart_verbose options some).1
  · intro trace backward
    rw [trace]
    exact congrArg writtenLines (lines_runPart_trace_of_reverse backward some)
  · intro trace untraced forward
    rw [trace, output_runPart_of_forward options forward some,
      output_runPart_of_forward { options with trace := true } forward some]
    simp only [untraced, if_neg Bool.false_ne_true, if_true, writtenLines_traceLines]
    constructor
    · apply List.flatMap_congr
      intro expression _
      cases Conversion.ofText expression with
      | error fault => rfl
      | ok conversion => exact List.append_nil _
    · apply List.flatMap_congr
      intro expression _
      cases Conversion.ofText expression with
      | error fault => rfl
      | ok conversion => simp only [List.append_assoc]

/-- Events and traces leave the failure between two conversions as it is. -/
theorem outcome_of_further_switch_failing :
    let expressions : List Text := ["A*B".toList, "A+".toList, "A*B".toList]
    Invocation.ofTexts expressions = .ok (.convert .none expressions) ∧
      (outcome ("-v".toList :: expressions)).output = (outcome expressions).output ∧
      withoutRecords (outcome ("-v".toList :: expressions)).diagnostics =
        "Error: Position 2: Expression ends without an operand\n".toList ∧
      (outcome ("-t".toList :: expressions)).diagnostics =
        "Error: Position 2: Expression ends without an operand\n".toList ∧
      (outcome ("-t".toList :: expressions)).output =
        ("A*B => AB*\n  operands  AB\n  operators *(depth=0, precedence=1)\n  tree\n" ++
          "    *(depth=0, precedence=1)\n      A\n      B\n" ++
          "A*B => AB*\n  operands  AB\n  operators *(depth=0, precedence=1)\n  tree\n" ++
          "    *(depth=0, precedence=1)\n      A\n      B\n").toList := by
  intro expressions
  have asked : Invocation.ofTexts expressions = .ok (.convert .none expressions) := rfl
  have verbose : Invocation.ofTexts ("-v".toList :: expressions) =
      .ok (.convert ⟨false, false, true⟩ expressions) := rfl
  have traced : Invocation.ofTexts ("-t".toList :: expressions) =
      .ok (.convert ⟨false, true, false⟩ expressions) := rfl
  have some : expressions ≠ [] := List.cons_ne_nil _ _
  obtain ⟨recorded, output, -, -⟩ := outcome_of_further_switch asked verbose some
  obtain ⟨silent, -, -, lines⟩ := outcome_of_further_switch asked traced some
  obtain ⟨-, messages, -, -, -⟩ := recorded (.inl rfl)
  obtain ⟨-, -, -, same, -⟩ := silent (.inr rfl)
  refine ⟨asked, output rfl, messages.trans ?_, (same rfl).trans ?_, (lines rfl rfl rfl).2.trans ?_⟩
  · decide +kernel
  · decide +kernel
  · decide +kernel

end PolishNotation.CommandLine
