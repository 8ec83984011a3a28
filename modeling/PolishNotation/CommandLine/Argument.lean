import PolishNotation.CommandLine.Switch
import PolishNotation.Text.Decimal

namespace PolishNotation.CommandLine

/-- A switch is given by its letter or by its long name. -/
inductive Spelling where
  | short
  | long
  deriving DecidableEq

/-- An argument is an expression, a switch with an optional value, or neither. -/
inductive Argument where
  | positional (text : Text)
  | switch (switch : Switch) (spelling : Spelling) (value : Option Text)
  | unknown (text : Text)
  deriving DecidableEq

namespace Argument

/-- This argument makes every later argument positional. -/
def terminator : Text := ['-', '-']

/-- The first equals sign separates a name from its value. -/
def splitValue : Text → Text × Option Text
  | [] => ([], none)
  | character :: rest =>
      if character = '=' then ([], some rest)
      else
        let (name, value) := splitValue rest
        (character :: name, value)

/-- This function reads a complete name. -/
def named? (name : Text) (value : Option Text) : Option Argument :=
  match Switch.all.find? fun switch => switch.shortName = name with
  | some found => some (.switch found .short value)
  | none =>
      match Switch.all.find? fun switch => switch.longName = name with
      | some found => some (.switch found .long value)
      | none => none

/-- These switches have a long name that starts with the text. -/
def abbreviated (text : Text) : List Switch :=
  Switch.all.filter fun switch => text.isPrefixOf switch.longName

/-- A run of digits may be empty. -/
def isDigits (text : Text) : Bool :=
  text.all isDecimalDigit

/-- A number has digits, with a point among them or in front of them. One line feed may follow. -/
def isUnsigned (text : Text) : Bool :=
  let digits := if text.getLast? = some '\n' then text.dropLast else text
  let whole := digits.takeWhile isDecimalDigit
  match digits.dropWhile isDecimalDigit with
  | [] => !whole.isEmpty
  | character :: fraction => character = '.' && !fraction.isEmpty && isDigits fraction

/-- An argument that names no switch is an expression if it is a negative number or has a space. -/
def unnamed (text : Text) : Argument :=
  if isUnsigned (text.drop 1) || text.contains ' ' then .positional text else .unknown text

/-- A long argument names the only switch that it abbreviates. -/
def ofLong (text : Text) : Except UsageFault Argument :=
  let (name, value) := splitValue text
  match abbreviated name with
  | [] => .ok (unnamed text)
  | [found] => .ok (.switch found .long value)
  | candidates => .error (.ambiguous text candidates)

/-- A short argument starts with the letter of its switch and has the rest as its value. -/
def ofShort (text : Text) : Argument :=
  match text with
  | _ :: character :: value =>
      match Switch.ofLetter? character with
      | some found => .switch found .short (some value)
      | none => unnamed text
  | _ => unnamed text

/-- An argument without a hyphen in front and a lone hyphen are positional. A complete name takes
precedence over an abbreviation. -/
def ofText (text : Text) : Except UsageFault Argument :=
  match text with
  | '-' :: character :: _ =>
      let (name, value) := splitValue text
      match (named? text none).or (value.bind fun given => named? name (some given)) with
      | some argument => .ok argument
      | none => if character = '-' then ofLong text else .ok (ofShort text)
  | _ => .ok (.positional text)

/-- The terminator and all arguments after it are positional. -/
def ofTexts : List Text → Except UsageFault (List Argument)
  | [] => .ok []
  | text :: rest =>
      if text = terminator then .ok ((text :: rest).map .positional)
      else
        match ofText text with
        | .error fault => .error fault
        | .ok argument => (ofTexts rest).map (argument :: ·)

end Argument

end PolishNotation.CommandLine
