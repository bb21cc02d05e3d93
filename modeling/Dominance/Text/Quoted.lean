import Dominance.Text.Combining
import Dominance.Text.Unprinted

/-!
# Quoted text

A text in double quotes, as messages show names.
The quote and the backslash are written behind a backslash, as are line feed, carriage return, tab
and NUL by a letter or digit.
A character that could not be seen, or that would attach to the quote, is written by its number in
hexadecimal.
-/

namespace Dominance.Text

/-- The lower-case hexadecimal digits of a number, without leading zeros. -/
def hexadecimal (n : Nat) : String := String.ofList (Nat.toDigits 16 n)

/-- How one character is written inside quotes. -/
def escape (c : Char) : String :=
  match c with
  | '"' => "\\\""
  | '\\' => "\\\\"
  | '\n' => "\\n"
  | '\r' => "\\r"
  | '\t' => "\\t"
  | '\x00' => "\\0"
  | c =>
    if isCombining c || isUnprinted c then
      "\\u\x7b" ++ hexadecimal c.toNat ++ "\x7d"
    else
      c.toString

/-- The text between double quotes. -/
def quoted (s : String) : String :=
  "\"" ++ String.join (s.toList.map escape) ++ "\""

end Dominance.Text
