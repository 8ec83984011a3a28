import PolishNotation.CommandLine.Invocation
import PolishNotation.CommandLine.Usage
import PolishNotation.Session

/-! This file runs the command line. -/

namespace PolishNotation.CommandLine

/-- A diagnostic is an event of a conversion or the message of a faulty expression. -/
inductive Diagnostic where
  | event (occurred : Event)
  | failure (message : Text)
  deriving DecidableEq

/-- This function writes a diagnostic on one line. -/
def Diagnostic.line : Diagnostic → Text
  | event occurred => occurred.line
  | failure message => "Error: ".toList ++ message

/-- A part of a run has its lines and diagnostics and says whether it failed. -/
structure Part where
  lines : List Text
  diagnostics : List Diagnostic
  failed : Bool

namespace Part

def empty : Part := ⟨[], [], false⟩

/-- The second part follows the first, and the whole fails if one of them does. -/
def append (first second : Part) : Part :=
  ⟨first.lines ++ second.lines, first.diagnostics ++ second.diagnostics,
    first.failed || second.failed⟩

/-- Only a verbose run shows its events. -/
def shown (options : Options) (events : List Event) : List Diagnostic :=
  if options.verbose then events.map .event else []

/-- A successful expression writes lines and a faulty one writes its message. -/
def ofResult (diagnostics : List Diagnostic) : Except Text (List Text) → Part
  | .ok lines => ⟨lines, diagnostics, false⟩
  | .error message => ⟨[], diagnostics ++ [.failure message], true⟩

end Part

/-- An arrow leads from an expression to its result. -/
def resultLine (expression result : Text) : Text :=
  expression ++ " => ".toList ++ result

/-- A trace shows the operands, the tokens and the tree of a conversion. -/
def traceLines (conversion : Conversion) : List Text :=
  ["  operands  ".toList ++ conversion.expression.operands,
    "  operators ".toList ++
      [',', ' '].intercalate (conversion.expression.tokens.map Token.text),
    "  tree".toList] ++
    (Text.lines conversion.tree.drawing).map ("    ".toList ++ ·)

/-- An expression with operators behind their operands is read without any event. -/
def restorePart (expression : Text) : Part :=
  .ofResult [] <|
    match toInfix expression with
    | .error fault => .error fault.message
    | .ok result => .ok [resultLine expression result]

/-- A traced expression is always converted anew. -/
def tracePart (options : Options) (expression : Text) : Part :=
  let report := Conversion.report expression
  .ofResult (Part.shown options report.events) <|
    match report.result with
    | .error fault => .error fault.message
    | .ok conversion =>
        .ok (resultLine expression conversion.output :: traceLines conversion)

/-- A plain expression takes its result from the memo if it can. -/
def convertPart (options : Options) (memo : Memo) (expression : Text) : Part × Memo :=
  let (report, next) := memo.convert expression
  let result :=
    match report.result with
    | .error fault => .error fault.message
    | .ok output => .ok [resultLine expression output]
  (.ofResult (Part.shown options report.events) result, next)

/-- Reading back takes precedence over tracing. -/
def expressionPart (options : Options) (memo : Memo) (expression : Text) : Part × Memo :=
  if options.reverse then (restorePart expression, memo)
  else if options.trace then (tracePart options expression, memo)
  else convertPart options memo expression

/-- All expressions share one memo. -/
def expressionParts (options : Options) (memo : Memo) : List Text → Part
  | [] => .empty
  | expression :: rest =>
      let (part, next) := expressionPart options memo expression
      part.append (expressionParts options next rest)

/-- A sample line shows the result, the expected result and whether they agree. -/
def sampleLine (expression result expected : Text) : Text :=
  expression ++ " => \"".toList ++ result ++ "\" [".toList ++ expected ++ "] [".toList ++
    (if result = expected then "true".toList else "false".toList) ++ "]".toList

/-- A sample fails if its result is not the expected one. -/
def samplePart (options : Options) (memo : Memo) (sample : Text × Text) : Part × Memo :=
  let (report, next) := memo.convert sample.1
  let shown := Part.shown options report.events
  match report.result with
  | .error fault => (.ofResult shown (.error fault.message), next)
  | .ok output => (⟨[sampleLine sample.1 output sample.2], shown, output ≠ sample.2⟩, next)

/-- The samples share one memo. -/
def sampleParts (options : Options) (memo : Memo) : List (Text × Text) → Part
  | [] => .empty
  | sample :: rest =>
      let (part, next) := samplePart options memo sample
      part.append (sampleParts options next rest)

/-- Without expressions the samples are run. -/
def runPart (options : Options) (expressions : List Text) : Part :=
  if expressions.isEmpty then sampleParts options .empty samples
  else expressionParts options .empty expressions

/-- An outcome is what the program leaves behind. -/
structure Outcome where
  exitCode : UInt8
  output : Text
  diagnostics : Text
  deriving DecidableEq

/-- Every line ends with a line feed. -/
def writtenLines (lines : List Text) : Text :=
  lines.flatMap (· ++ ['\n'])

/-- A failed part of a run makes the exit code one. -/
def Part.outcome (part : Part) : Outcome :=
  ⟨if part.failed then 1 else 0, writtenLines part.lines,
    writtenLines (part.diagnostics.map Diagnostic.line)⟩

/-- A fault of the arguments makes the exit code two. -/
def outcome (arguments : List Text) : Outcome :=
  match Invocation.ofTexts arguments with
  | .error fault => ⟨2, [], usageError fault⟩
  | .ok .help => ⟨0, help, []⟩
  | .ok (.convert options expressions) => (runPart options expressions).outcome

end PolishNotation.CommandLine
