import PolishNotation.Text

namespace PolishNotation

/-- These code points are the zeros of the scripts in increasing order. -/
def zeroDigits : List Nat :=
  [0x0030, 0x0660, 0x06F0, 0x07C0, 0x0966, 0x09E6, 0x0A66, 0x0AE6, 0x0B66, 0x0BE6, 0x0C66, 0x0CE6,
    0x0D66, 0x0DE6, 0x0E50, 0x0ED0, 0x0F20, 0x1040, 0x1090, 0x17E0, 0x1810, 0x1946, 0x19D0, 0x1A80,
    0x1A90, 0x1B50, 0x1BB0, 0x1C40, 0x1C50, 0xA620, 0xA8D0, 0xA900, 0xA9D0, 0xA9F0, 0xAA50, 0xABF0,
    0xFF10, 0x104A0, 0x10D30, 0x11066, 0x110F0, 0x11136, 0x111D0, 0x112F0, 0x11450, 0x114D0,
    0x11650, 0x116C0, 0x11730, 0x118E0, 0x11950, 0x11C50, 0x11D50, 0x11DA0, 0x16A60, 0x16AC0,
    0x16B50, 0x1D7CE, 0x1D7D8, 0x1D7E2, 0x1D7EC, 0x1D7F6, 0x1E140, 0x1E2F0, 0x1E950, 0x1FBF0]

/-- A decimal digit lies in the row of ten that starts at a zero. -/
def isDecimalDigit (character : Char) : Bool :=
  zeroDigits.any fun start => start ≤ character.toNat && character.toNat < start + 10

/-- A negative number has a minus sign in front of its digits. -/
def decimal : Int → Text
  | .ofNat value => Nat.toDigits 10 value
  | .negSucc value => '-' :: Nat.toDigits 10 (value + 1)

/-- The digits of a number read back as the number. -/
theorem toDigits_injective {first second : Nat}
    (same : Nat.toDigits 10 first = Nat.toDigits 10 second) : first = second := by
  have read := congrArg (fun digits => Nat.ofDigitChars 10 digits 0) same
  simpa using read

theorem isDigit_of_mem_toDigits {value : Nat} {character : Char}
    (present : character ∈ Nat.toDigits 10 value) : character.isDigit = true :=
  Nat.isDigit_of_mem_toDigits (by decide) (by decide) present

/-- The minus sign is no digit. -/
theorem toDigits_ne_minus (value : Nat) (rest : Text) : Nat.toDigits 10 value ≠ '-' :: rest := by
  intro same
  have present : '-' ∈ Nat.toDigits 10 value := same ▸ List.mem_cons_self
  exact absurd (isDigit_of_mem_toDigits present) (by decide)

/-- An integer is written with digits and the minus sign only. -/
theorem notMem_decimal (character : Char) (noMinus : character ≠ '-')
    (noDigit : character.isDigit = false) (value : Int) : character ∉ decimal value := by
  have outside (natural : Nat) : character ∉ Nat.toDigits 10 natural := by
    intro present
    rw [isDigit_of_mem_toDigits present] at noDigit
    cases noDigit
  cases value with
  | ofNat natural => exact outside natural
  | negSucc natural => exact List.not_mem_cons_of_ne_of_not_mem noMinus (outside (natural + 1))

theorem decimal_injective {first second : Int} (same : decimal first = decimal second) :
    first = second := by
  match first, second, same with
  | .ofNat _, .ofNat _, same => exact congrArg Int.ofNat (toDigits_injective same)
  | .ofNat one, .negSucc _, same => exact absurd same (toDigits_ne_minus one _)
  | .negSucc _, .ofNat other, same => exact absurd same.symm (toDigits_ne_minus other _)
  | .negSucc _, .negSucc _, same =>
      have digits := toDigits_injective (List.cons.inj same).2
      exact congrArg Int.negSucc (Nat.succ.inj digits)

end PolishNotation
