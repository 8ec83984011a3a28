import PolishNotation.Text.Decimal
import PolishNotation.Text.Printable

namespace PolishNotation

/-- This character is the single quote. -/
def singleQuote : Char := Char.ofNat 0x27

/-- This character is the double quote. -/
def doubleQuote : Char := Char.ofNat 0x22

/-- This function writes a number in base sixteen with leading zeros up to the width. -/
def hexadecimal (width value : Nat) : Text :=
  let digits := Nat.toDigits 16 value
  List.replicate (width - digits.length) '0' ++ digits

/-- The shortest of three fixed widths that fits the code point escapes it. -/
def escapeCode (code : Nat) : Text :=
  if code ≤ 0xFF then '\\' :: 'x' :: hexadecimal 2 code
  else if code ≤ 0xFFFF then '\\' :: 'u' :: hexadecimal 4 code
  else '\\' :: 'U' :: hexadecimal 8 code

/-- Inside quotes the quote and the backslash have a backslash in front. -/
def quotedCharacter (quote character : Char) : Text :=
  if character = quote ∨ character = '\\' then ['\\', character]
  else if character = '\t' then ['\\', 't']
  else if character = '\n' then ['\\', 'n']
  else if character = '\r' then ['\\', 'r']
  else if isPrintable character then [character]
  else escapeCode character.toNat

namespace Text

/-- Double quotes serve only a text that has single quotes and no double quotes. -/
def quoteMark (text : Text) : Char :=
  if text.contains singleQuote && !text.contains doubleQuote then doubleQuote else singleQuote

/-- This function writes a text between its quotes. -/
def quoted (text : Text) : Text :=
  text.quoteMark :: text.flatMap (quotedCharacter text.quoteMark) ++ [text.quoteMark]

/-- A list is written between brackets with commas between its members. -/
def listed (members : List Text) : Text :=
  '[' :: [',', ' '].intercalate members ++ [']']

end Text

/-- A printable character without a role inside quotes is written as itself. -/
theorem quotedCharacter_of_isPrintable {quote character : Char} (other : character ≠ quote)
    (plain : character ≠ '\\') (tab : character ≠ '\t') (feed : character ≠ '\n')
    (carriage : character ≠ '\r') (printable : isPrintable character = true) :
    quotedCharacter quote character = [character] := by
  simp [quotedCharacter, other, plain, tab, feed, carriage, printable]

end PolishNotation
