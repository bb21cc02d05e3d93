import Dominance.Text.CodeRange

/-!
# Blanks

Blanks are the characters with the Unicode property White_Space: the ASCII blanks (vertical tab and
form feed included), the next-line character, and the spaces and separators of general
punctuation.
-/

namespace Dominance.Text

/-- The ranges of White_Space. -/
def blankRanges : List CodeRange :=
  [(0x0009, 0x000d), (0x0020, 0x0020), (0x0085, 0x0085), (0x00a0, 0x00a0), (0x1680, 0x1680),
   (0x2000, 0x200a), (0x2028, 0x2029), (0x202f, 0x202f), (0x205f, 0x205f), (0x3000, 0x3000)]

/-- Whether a character is a blank. -/
def isBlank (c : Char) : Bool := inRanges blankRanges c

/-! ## Trimming -/

/-- The text without the blanks in front of it. -/
def trimStart (cs : List Char) : List Char := cs.dropWhile isBlank

/-- The text without the blanks behind it. -/
def trimEnd (cs : List Char) : List Char := (trimStart cs.reverse).reverse

/-- The text without the blanks at either end. -/
def trim (cs : List Char) : List Char := trimEnd (trimStart cs)

/-- Whether the text starts with a blank. -/
def startsBlank (cs : List Char) : Bool := cs.head?.any isBlank

/-- Whether the text ends with a blank. -/
def endsBlank (cs : List Char) : Bool := cs.getLast?.any isBlank

/-- Whether the text has no character but blanks. -/
def isBlankText (cs : List Char) : Bool := cs.all isBlank

end Dominance.Text
