import PolishNotation.Text.Quoted

namespace PolishNotation.CommandLine

/-- A switch takes no value. -/
inductive Switch where
  | help
  | reverse
  | trace
  | verbose
  deriving DecidableEq

namespace Switch

/-- The switches stand in the order of the usage line. -/
def all : List Switch := [help, reverse, trace, verbose]

def letter : Switch → Char
  | help => 'h'
  | reverse => 'r'
  | trace => 't'
  | verbose => 'v'

/-- The short name is a hyphen and one letter. -/
def shortName (switch : Switch) : Text :=
  ['-', switch.letter]

/-- The long name starts with two hyphens. -/
def longName : Switch → Text
  | help => "--help".toList
  | reverse => "--reverse".toList
  | trace => "--trace".toList
  | verbose => "--verbose".toList

/-- Messages show both names of a switch. -/
def names (switch : Switch) : Text :=
  switch.shortName ++ '/' :: switch.longName

def ofLetter? (character : Char) : Option Switch :=
  all.find? fun switch => switch.letter = character

end Switch

/-- These faults end the program before any expression is read. -/
inductive UsageFault where
  | ambiguous (argument : Text) (candidates : List Switch)
  | ignoredValue (switch : Switch) (value : Text)
  | unrecognized (arguments : List Text)
  deriving DecidableEq

/-- This function describes a fault of the arguments. -/
def UsageFault.message : UsageFault → Text
  | ambiguous argument candidates =>
      "ambiguous option: ".toList ++ argument ++ " could match ".toList ++
        [',', ' '].intercalate (candidates.map Switch.longName)
  | ignoredValue switch value =>
      "argument ".toList ++ switch.names ++ ": ignored explicit argument ".toList ++ value.quoted
  | unrecognized arguments =>
      "unrecognized arguments: ".toList ++ [' '].intercalate arguments

end PolishNotation.CommandLine
