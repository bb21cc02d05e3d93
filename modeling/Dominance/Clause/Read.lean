import Dominance.Clause.Basic
import Dominance.Text.Line

/-!
# Reading graphs

A graph text is read line by line.
Blank lines count as lines but say nothing.
The first line that breaks a rule ends the reading; its index, counted from zero, goes into the
error.
Warnings give line numbers, counted from one, and are kept whether or not the reading succeeds.
-/

namespace Dominance

/-- What a reader should know about a line that was accepted. -/
inductive Caution where
  /-- A name has blanks around it. -/
  | paddedName
  /-- The name was declared before. -/
  | declaredTwice
deriving DecidableEq, Repr

/-- The text of a warning. -/
def Caution.message : Caution → String
  | .paddedName => "node names beginning or ending by spaces may be ambiguous"
  | .declaredTwice => "node declared twice; the first declaration is kept"

/-- A warning about a line; lines are numbered from one. -/
structure Warning where
  line : Nat
  caution : Caution
deriving DecidableEq, Repr

/-- Where and why reading failed; lines are indexed from zero. -/
structure ReadError where
  index : Nat
  fault : Clause.LineFault
deriving DecidableEq, Repr

/-- The message of an error, the outermost context first. -/
def ReadError.chain (e : ReadError) : List String :=
  ("while reading line with index " ++ e.index.repr) :: e.fault.chain

/-- The message of an error on one line. -/
def ReadError.message (e : ReadError) : String := String.intercalate ": " e.chain

/-- What was read so far. -/
structure Draft where
  graph : Graph := .empty
  /-- Whether an edge was read. -/
  edgesStarted : Bool := false
  warnings : List Warning := []

/-- The result of a reading, with the warnings up to its end. -/
structure Reading where
  warnings : List Warning
  result : Except ReadError Graph

namespace Draft

/-- Adds the same warning a number of times. -/
def warn (d : Draft) (index : Nat) (times : Nat) (caution : Caution) : Draft :=
  { d with warnings := d.warnings ++ List.replicate times ⟨index + 1, caution⟩ }

/-- Ends the reading with an error. -/
def fail (d : Draft) (index : Nat) (fault : Clause.LineFault) : Reading :=
  ⟨d.warnings, .error ⟨index, fault⟩⟩

/-- Declares a node, unless its name is taken. -/
def declare (d : Draft) (index : Nat) (name : String) (label : Option String) : Draft :=
  if d.graph.nodes.contains name then d.warn index 1 .declaredTwice
  else { d with graph := (d.graph.addNode name label).2 }

/-- Takes in a node clause. -/
def addNode (d : Draft) (index padded : Nat) (name : String) (label : Option String) :
    Draft × Option Clause.LineFault :=
  if d.edgesStarted then (d, some .lateNode)
  else ((d.warn index padded .paddedName).declare index name label, none)

/-- Takes in an edge clause. -/
def addEdge (d : Draft) (index padded : Nat) (kind : EdgeKind) (source target : String) :
    Draft × Option Clause.LineFault :=
  let d := { d.warn index padded .paddedName with edgesStarted := true }
  match d.graph.addNamedEdge kind source target with
  | .error error => (d, some (.refused error))
  | .ok graph => ({ d with graph }, none)

/-- Takes in one line. If the line breaks a rule, the draft still has the warnings about it. -/
def addLine (d : Draft) (index : Nat) (line : List Char) : Draft × Option Clause.LineFault :=
  if Text.isBlankText line then (d, none)
  else
    match Clause.parse line with
    | .error fault => (d, some fault)
    | .ok ⟨.label name label, padded⟩ => d.addNode index padded name (some label)
    | .ok ⟨.hole name, padded⟩ => d.addNode index padded name none
    | .ok ⟨.edge kind source target, padded⟩ => d.addEdge index padded kind source target

end Draft

namespace Graph

/-- A line of the input, or why there is none. -/
abbrev InputLine := Except Clause.LineFault (List Char)

/-- Reads on from a draft, at the line with the given index. -/
def readFrom (d : Draft) (index : Nat) : List InputLine → Reading
  | [] => ⟨d.warnings, .ok d.graph⟩
  | .error fault :: _ => d.fail index fault
  | .ok line :: rest =>
    match d.addLine index line with
    | (d, some fault) => d.fail index fault
    | (d, none) => readFrom d (index + 1) rest

/-- Reads a graph from a text. -/
def read (text : String) : Reading := readFrom {} 0 ((Text.lines text.toList).map .ok)

/-- Reads a graph from bytes. -/
def readBytes (bytes : ByteArray) : Reading :=
  readFrom {} 0 <| (Text.byteLines bytes).map fun
    | some line => .ok line
    | none => .error .notText

end Graph

end Dominance
