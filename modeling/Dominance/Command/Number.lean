/-!
# Numbers on the command line

A number is a sequence of decimal digits, with a plus sign in front if one likes, and has to fit
into 64 bits.
Digits are read from left to right, and the first thing that goes wrong is reported.
-/

namespace Dominance.Command

/-- Why a text is not a number. -/
inductive NumberError where
  | empty
  | badDigit
  | tooLarge
deriving DecidableEq, Repr

/-- The message of an error. -/
def NumberError.message : NumberError → String
  | .empty => "cannot parse integer from empty string"
  | .badDigit => "invalid digit found in string"
  | .tooLarge => "number too large to fit in target type"

/-- The numbers below this bound, the 64th power of two, fit. -/
def numberBound : Nat := 18446744073709551616

/-- Reads on with digits after a number. -/
def readDigits (n : Nat) : List Char → Except NumberError Nat
  | [] => .ok n
  | c :: rest =>
    if c.isDigit then
      let next := 10 * n + (c.toNat - '0'.toNat)
      if next < numberBound then readDigits next rest else .error .tooLarge
    else
      .error .badDigit

/-- Reads a number. -/
def readNumber (s : String) : Except NumberError Nat :=
  match s.toList with
  | [] => .error .empty
  | ['+'] => .error .badDigit
  | '+' :: digits => readDigits 0 digits
  | digits => readDigits 0 digits

end Dominance.Command
