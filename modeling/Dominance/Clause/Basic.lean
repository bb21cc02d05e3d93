import Dominance.Graph.Basic
import Dominance.Text.DecimalDigit

/-!
# Clauses

A graph is written as a text with one clause on each line: nodes first, then edges.

* `label(x, every).` declares a labelled node
* `hole(xh).` declares a hole
* `tree(x, xh).` and `dom(xh, z).` are edges

A name starts with a letter or an underscore and goes on with letters, underscores and decimal
digits.
A label is any text without comma and parentheses that neither starts nor ends with a blank.
Blanks around a clause, a name or a label are allowed; around a name they raise a warning.
-/

namespace Dominance

/-- A line of a graph text. -/
inductive Clause where
  | label (name label : String)
  | hole (name : String)
  | edge (kind : EdgeKind) (source target : String)
deriving DecidableEq, Repr

namespace Clause

/-- The clause as it is written, without the line end. -/
def render : Clause → String
  | .label name text => "label(" ++ name ++ ", " ++ text ++ ")."
  | .hole name => "hole(" ++ name ++ ")."
  | .edge kind source target => kind.keyword ++ "(" ++ source ++ ", " ++ target ++ ")."

/-! ## Names -/

/-- Whether a name may start with a character. -/
def isNameStart (c : Char) : Bool := c = '_' || c.isAlpha

/-- Whether a name may go on with a character. -/
def isNameRest (c : Char) : Bool := isNameStart c || Text.isDecimalDigit c

/-- Whether a text is a name. -/
def isName : List Char → Bool
  | [] => false
  | c :: rest => isNameStart c && rest.all isNameRest

/-! ## Faults of a line -/

/-- Why a line cannot be read. -/
inductive LineFault where
  /-- The input broke off. -/
  | broken (reason : String)
  /-- The bytes of the line are no text. -/
  | notText
  /-- A label clause whose name or label is malformed. -/
  | badLabel (clause : String)
  /-- A hole clause whose name is malformed. -/
  | badHole (clause : String)
  /-- An edge clause with a malformed name. -/
  | badEdge (clause : String)
  /-- No clause at all. -/
  | noClause (line : String)
  /-- A node after an edge. -/
  | lateNode
  /-- The graph refuses the edge. -/
  | refused (error : GraphError)
deriving DecidableEq, Repr

/-- The message of a fault, the outermost context first. -/
def LineFault.chain : LineFault → List String
  | .broken reason => [reason]
  | .notText => ["stream did not contain valid UTF-8"]
  | .badLabel clause => ["invalid node name or label in " ++ clause]
  | .badHole clause => ["invalid node name in " ++ clause]
  | .badEdge clause => ["invalid node names in " ++ clause]
  | .noClause line => ["syntax error in line \"" ++ line ++ "\""]
  | .lateNode => ["found a node declaration after an edge"]
  | .refused error => error.chain

/-! ## Parsing -/

/-- A clause, and how many of its names have blanks around them. -/
structure Parsed where
  clause : Clause
  padded : Nat := 0
deriving DecidableEq, Repr

/-- Whether a character is a parenthesis. -/
def isParen (c : Char) : Bool := c = '(' || c = ')'

/-- What stands between the parentheses of a clause with a given keyword. It is not empty and has no
parentheses itself. -/
def inside? (keyword : String) (body : List Char) : Option (List Char) := do
  let rest ← (keyword.toList ++ ['(']).isPrefixOf? body
  let inside ← [')', '.'].isSuffixOf? rest
  if inside.isEmpty || inside.any isParen then none else some inside

/-- The two arguments of a clause that has exactly two, neither of them empty. -/
def arguments? (keyword : String) (body : List Char) : Option (List Char × List Char) := do
  let inside ← inside? keyword body
  match inside.takeWhile (· ≠ ','), inside.dropWhile (· ≠ ',') with
  | first@(_ :: _), ',' :: second@(_ :: _) =>
    if second.contains ',' then none else some (first, second)
  | _, _ => none

/-- One for a name with blanks around it. -/
def paddingOf (written name : List Char) : Nat := if written.length = name.length then 0 else 1

/-- Reads a label clause from its arguments. -/
def parseLabel (body first second : List Char) : Except LineFault Parsed :=
  let name := Text.trim first
  let text := Text.trim second
  if isName name && !text.isEmpty then
    .ok ⟨.label (.ofList name) (.ofList text), paddingOf first name⟩
  else
    .error (.badLabel (.ofList body))

/-- Reads a hole clause from its argument. -/
def parseHole (body argument : List Char) : Except LineFault Parsed :=
  let name := Text.trim argument
  if isName name then .ok ⟨.hole (.ofList name), paddingOf argument name⟩
  else .error (.badHole (.ofList body))

/-- Reads an edge clause from its arguments. Blanks between the comma and the second name are part of
the layout and raise no warning. -/
def parseEdge (kind : EdgeKind) (body first second : List Char) : Except LineFault Parsed :=
  let source := Text.trim first
  let target := Text.trim second
  if isName source && isName target then
    .ok ⟨.edge kind (.ofList source) (.ofList target),
      paddingOf first source + paddingOf (Text.trimStart second) target⟩
  else
    .error (.badEdge (.ofList body))

/-- Reads one line that is not blank. -/
def parse (line : List Char) : Except LineFault Parsed :=
  let body := Text.trim line
  if let some (first, second) := arguments? "label" body then parseLabel body first second
  else if let some argument := inside? "hole" body then parseHole body argument
  else if let some (first, second) := arguments? "tree" body then
    parseEdge .tree body first second
  else if let some (first, second) := arguments? "dom" body then
    parseEdge .dominance body first second
  else .error (.noClause (.ofList line))

end Clause

end Dominance
