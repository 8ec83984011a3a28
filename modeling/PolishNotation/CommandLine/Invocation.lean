import PolishNotation.CommandLine.Argument

namespace PolishNotation.CommandLine

/-- The options choose what is written for every expression. -/
structure Options where
  reverse : Bool
  trace : Bool
  verbose : Bool
  deriving DecidableEq

/-- Without a switch every option is off. -/
def Options.none : Options :=
  ⟨false, false, false⟩

/-- A switch turns its option on. -/
def Options.turnOn (options : Options) : Switch → Options
  | .help => options
  | .reverse => { options with reverse := true }
  | .trace => { options with trace := true }
  | .verbose => { options with verbose := true }

/-- The arguments ask for help or give expressions. -/
inductive Invocation where
  | help
  | convert (options : Options) (expressions : List Text)
  deriving DecidableEq

namespace Invocation

/-- Every further letter must name a switch. -/
def letters (switch : Switch) : Text → Except UsageFault (List Switch)
  | [] => .ok [switch]
  | character :: rest =>
      match Switch.ofLetter? character with
      | .none => .error (.ignoredValue switch (character :: rest))
      | some next => (letters next rest).map (switch :: ·)

/-- The value of a short switch holds further letters. An empty value and every value of a long
switch are refused. -/
def cluster (switch : Switch) : Spelling → Option Text → Except UsageFault (List Switch)
  | _, .none => .ok [switch]
  | .short, some (character :: rest) => letters switch (character :: rest)
  | _, some value => .error (.ignoredValue switch value)

/-- The reader has not met a positional argument, is among the expressions, or is behind them. -/
inductive Stage where
  | before
  | among
  | behind
  deriving DecidableEq

/-- This state holds the options, the expressions and the arguments that are left over. -/
structure State where
  options : Options
  stage : Stage
  expressions : List Text
  leftover : List Text

namespace State

def start : State :=
  ⟨.none, .before, [], []⟩

/-- An argument that is no expression ends the run of expressions. -/
def leave (state : State) : State :=
  { state with stage := if state.stage = .before then .before else .behind }

/-- A positional argument goes to the expressions unless their run is over. -/
def readPositional (state : State) (text : Text) : State :=
  if state.stage = .behind then { state with leftover := state.leftover ++ [text] }
  else { state with stage := .among, expressions := state.expressions ++ [text] }

/-- An unknown argument is left over. -/
def readUnknown (state : State) (text : Text) : State :=
  { state.leave with leftover := state.leftover ++ [text] }

/-- The switches turn their options on. -/
def readSwitches (state : State) (switches : List Switch) : State :=
  { state.leave with options := switches.foldl Options.turnOn state.options }

/-- The terminator is no expression. At the end no argument may be left over. -/
def finish (state : State) : Except UsageFault Invocation :=
  if state.leftover.isEmpty then
    .ok (.convert state.options (state.expressions.erase Argument.terminator))
  else .error (.unrecognized state.leftover)

/-- A request for help ends the reading at once. -/
def run (state : State) : List Argument → Except UsageFault Invocation
  | [] => state.finish
  | .positional text :: rest => (state.readPositional text).run rest
  | .unknown text :: rest => (state.readUnknown text).run rest
  | .switch switch spelling value :: rest =>
      match cluster switch spelling value with
      | .error fault => .error fault
      | .ok switches =>
          if switches.contains .help then .ok .help else (state.readSwitches switches).run rest

end State

/-- This function reads all arguments. An ambiguous argument in front of the terminator is a fault
even behind a request for help. -/
def ofTexts (texts : List Text) : Except UsageFault Invocation :=
  match Argument.ofTexts texts with
  | .error fault => .error fault
  | .ok arguments => State.start.run arguments

end Invocation

end PolishNotation.CommandLine
