/-!
# Lines

A text is cut into lines at each line feed.
One carriage return just before a line feed belongs to the line end.
What follows the last line feed is a line of its own unless it is empty, and keeps its characters.

The same rule holds for characters and for bytes; a line of bytes is a text only if it is valid
UTF-8.
-/

namespace Dominance.Text

variable {α : Type} [DecidableEq α]

/-- Ends a line that was collected backwards, at a line feed. -/
def endLine (ret : α) (line : List α) : List α :=
  match line with
  | [] => []
  | c :: rest => if c = ret then rest.reverse else line.reverse

/-- Cuts off lines, with the current line collected backwards. -/
def cutLines (feed ret : α) : (line : List α) → List α → List (List α)
  | [], [] => []
  | c :: line, [] => [(c :: line).reverse]
  | line, c :: rest =>
    if c = feed then endLine ret line :: cutLines feed ret [] rest
    else cutLines feed ret (c :: line) rest

/-- The lines of a text. -/
def lines (cs : List Char) : List (List Char) := cutLines '\n' '\r' [] cs

/-- The lines of a text given in bytes; a line that is not valid UTF-8 has no text. -/
def byteLines (bytes : ByteArray) : List (Option (List Char)) :=
  (cutLines 10 13 [] bytes.toList).map fun line =>
    (String.fromUTF8? ⟨line.toArray⟩).map String.toList

/-! ## Lines of a message -/

/-- The first line of a message. -/
def headline (message : String) : String :=
  .ofList (message.toList.takeWhile (· ≠ '\n'))

/-- What follows the first line of a message, if it has more lines. -/
def afterHeadline (message : String) : Option String :=
  match message.toList.dropWhile (· ≠ '\n') with
  | [] => none
  | _ :: rest => some (.ofList rest)

end Dominance.Text
