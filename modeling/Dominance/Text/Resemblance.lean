/-!
# Resemblance of words

Two words resemble each other if most of their characters can be matched, nearly in the same order.

* a character of the first word is matched with the first equal character of the second that is
  not taken yet and stands within reach, which is a little less than half the length of the longer
  word
* a match that lies before the match made last is swapped
* the likeness of two words is the mean of three shares: of the matches among the characters of the
  first word, among those of the second, and of the matches that are not swapped among all matches
* each character of a common start adds a tenth of what the likeness lacks
* words resemble each other if their likeness is more than four fifths

Shares are fractions of natural numbers, so that no rounding takes place.
-/

namespace Dominance.Text

/-- The matches found so far between two words. -/
structure Matching where
  /-- The characters of the second word that are not taken, with their positions. -/
  free : List (Char × Nat)
  matched : Nat := 0
  swapped : Nat := 0
  /-- The position in the second word of the match made last. -/
  last : Nat := 0
deriving DecidableEq, Repr

namespace Matching

/-- Looks for a match for a character of the first word. -/
def step (reach : Nat) (m : Matching) (c : Char) (position : Nat) : Matching :=
  let fits (other : Char × Nat) : Bool :=
    other.1 = c && position ≤ other.2 + reach && other.2 ≤ position + reach
  match m.free.find? fits with
  | none => m
  | some (_, other) =>
    { free := m.free.filter (·.2 ≠ other)
      matched := m.matched + 1
      swapped := if other < m.last then m.swapped + 1 else m.swapped
      last := other }

/-- The matches between two words. -/
def ofWords (a b : List Char) : Matching :=
  let reach := max a.length b.length / 2 - 1
  a.zipIdx.foldl (fun m (c, position) => m.step reach c position) { free := b.zipIdx }

end Matching

/-- The length of the common start of two words. -/
def commonStart : List Char → List Char → Nat
  | c :: a, d :: b => if c = d then commonStart a b + 1 else 0
  | _, _ => 0

/-- Whether two words resemble each other. The likeness without the common start is
`alike / whole`. -/
def resembles (a b : List Char) : Bool :=
  let m := Matching.ofWords a b
  let whole := 3 * a.length * b.length * m.matched
  let alike := m.matched * m.matched * (a.length + b.length)
    + (m.matched - m.swapped) * a.length * b.length
  a = b || 8 * whole < 10 * alike + commonStart a b * (whole - alike)

end Dominance.Text
