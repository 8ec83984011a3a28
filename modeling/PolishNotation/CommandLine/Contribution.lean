import PolishNotation.CommandLine.Outcome

namespace PolishNotation.CommandLine

/-- An expression has lines to write or the message of its fault. -/
def linesOrMessage (options : Options) (expression : Text) : Except Text (List Text) :=
  if options.reverse then
    match toInfix expression with
    | .error fault => .error fault.message
    | .ok result => .ok [resultLine expression result]
  else
    match Conversion.ofText expression with
    | .error fault => .error fault.message
    | .ok conversion =>
        .ok (resultLine expression conversion.output ::
          if options.trace then traceLines conversion else [])

/-- An expression contributes its lines or its failure. -/
def contribution (options : Options) (expression : Text) : Part :=
  .ofResult [] (linesOrMessage options expression)

/-- A faulty expression leaves the line of its message behind. -/
def errorText (options : Options) (expression : Text) : Text :=
  match linesOrMessage options expression with
  | .ok _ => []
  | .error message => "Error: ".toList ++ message ++ "\n".toList

/-- A failure is the message of a faulty expression. -/
def Diagnostic.isFailure : Diagnostic → Bool
  | event _ => false
  | failure _ => true

/-- A record of the log starts with the name of the part of the program that writes it. -/
def isRecord (line : Text) : Bool :=
  "intopo.scanner: ".toList.isPrefixOf line || "intopo.tree: ".toList.isPrefixOf line

/-- Without the records of the log the other lines of a text follow each other. -/
def withoutRecords (text : Text) : Text :=
  Text.joinLines ((Text.lines text).filter fun line => !isRecord line)

namespace Part

/-- The failures are the diagnostics that remain when the events are removed. -/
def failures (part : Part) : List Diagnostic :=
  part.diagnostics.filter Diagnostic.isFailure

/-- A part without its events keeps its lines and its failures. -/
def withoutEvents (part : Part) : Part :=
  { part with diagnostics := part.failures }

/-- The parts follow each other, and the whole fails if one of them does. -/
def concat (parts : List Part) : Part :=
  ⟨parts.flatMap lines, parts.flatMap diagnostics, parts.any failed⟩

theorem concat_cons (part : Part) (rest : List Part) :
    concat (part :: rest) = part.append (concat rest) := rfl

end Part

/-- Outcomes that follow each other leave all their texts behind, and the whole fails if one of them
does. -/
def Outcome.concat (outcomes : List Outcome) : Outcome :=
  ⟨if ∃ single ∈ outcomes, single.exitCode = 1 then 1 else 0,
    outcomes.flatMap Outcome.output, outcomes.flatMap Outcome.diagnostics⟩

namespace Options

/-- These switches turn the options on. -/
def switches (options : Options) : List Switch :=
  (if options.reverse then [.reverse] else []) ++ (if options.trace then [.trace] else []) ++
    if options.verbose then [.verbose] else []

/-- The switches stand in front of the terminator and the expressions behind it. -/
def arguments (options : Options) (expressions : List Text) : List Text :=
  options.switches.map Switch.shortName ++ Argument.terminator :: expressions

end Options

end PolishNotation.CommandLine
