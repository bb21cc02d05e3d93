import Dominance.Chart.Basic
import Dominance.Clause.Basic
import Dominance.Graph.Checked
import Dominance.SolvedForm

/-!
# Writing graphs, charts and solutions

What is to be written is a document: a sequence of pieces, and a context for the message if writing
fails.
A piece is ready to be written once the names of its nodes are known, and it has a fault if one of its
nodes is not one of the graph.
A device takes the pieces one by one and is flushed at the end; each step may fail.
-/

namespace Dominance

/-! ## Documents -/

/-- A part of a document that is written in one go. -/
structure Piece where
  text : String
  /-- What keeps the piece from being written. -/
  fault : Option Fault := none
deriving DecidableEq, Repr

/-- What is to be written, and the context of a failure. -/
structure Document where
  context : String
  pieces : List Piece

/-- Why a document was not written. -/
inductive WriteError where
  /-- A piece could not be made. -/
  | fault (fault : Fault)
  /-- The device failed. -/
  | device (context reason : String)
deriving DecidableEq, Repr

/-- A device with a state of type `σ`; a step that fails gives its reason. -/
structure Device (σ : Type) where
  write : σ → String → Except String σ
  flush : σ → Except String σ

namespace Document

/-- The text of all pieces. -/
def text (d : Document) : String := String.join (d.pieces.map (·.text))

/-- The fault of the first piece that has one. -/
def fault? (d : Document) : Option Fault := d.pieces.findSome? (·.fault)

/-- The text of the document, provided that all its pieces can be made. -/
def checkedText (d : Document) : Except Fault String :=
  match d.fault? with
  | none => .ok d.text
  | some fault => .error fault

/-- Gives the pieces to a device. -/
def sendPieces {σ : Type} (device : Device σ) (context : String) :
    List Piece → σ → Except WriteError σ
  | [], state => .ok state
  | piece :: pieces, state =>
    match piece.fault with
    | some fault => .error (.fault fault)
    | none =>
      match device.write state piece.text with
      | .error reason => .error (.device context reason)
      | .ok state => sendPieces device context pieces state

/-- Gives the document to a device and flushes it. -/
def send {σ : Type} (d : Document) (device : Device σ) (state : σ) : Except WriteError σ :=
  match sendPieces device d.context d.pieces state with
  | .error e => .error e
  | .ok state =>
    match device.flush state with
    | .error reason => .error (.device d.context reason)
    | .ok state => .ok state

end Document

/-! ## The documents of the library -/

namespace Graph

/-- The name of a node; a number that is no node has none. -/
def spell (g : Graph) (n : Nat) : String := (g.nodes.name? n).getD ""

/-- A piece that mentions nodes by name. -/
def piece (g : Graph) (mentioned : List Nat) (text : String) : Piece where
  text
  fault := (mentioned.find? (g.size ≤ ·)).map .unknownNode

/-- The clauses of the nodes, in the order of their identifiers. -/
def nodeClauses (g : Graph) : List Clause :=
  g.nodes.entries.toList.map fun (name, v) =>
    match v.label with
    | some label => .label name label
    | none => .hole name

/-- The clauses of the edges, in the order of insertion. -/
def edgeClauses (g : Graph) : List Clause :=
  g.edges.map fun e => .edge e.kind (g.spell e.source) (g.spell e.target)

/-- The clauses of the graph. -/
def clauses (g : Graph) : List Clause := g.nodeClauses ++ g.edgeClauses

/-- The graph as a text of clauses. -/
def document (g : Graph) : Document where
  context := "while writing a graph"
  pieces := g.clauses.map fun clause => { text := clause.render ++ "\n" }

/-- The graph as a text of clauses. -/
def write (g : Graph) : String := g.document.text

/-- The splits of a chart by the names of the graph, a line for each. -/
def chartDocument (g : Graph) (c : Chart) : Document where
  context := "while writing a chart"
  pieces := c.table.toList.flatMap fun (s, splits) =>
    splits.map fun split =>
      g.piece (s.ids ++ split.mentioned) (Chart.renderLine g.spell s split ++ "\n")

/-- The links of a solved form by the names of the graph, on one line. -/
def solvedFormDocument (g : Graph) (f : SolvedForm) : Document where
  context := "while writing a solved form"
  pieces :=
    let linkPiece (lead : String) (l : Link) : Piece :=
      g.piece [l.source, l.target] (lead ++ l.renderWith g.spell)
    let links :=
      match f.links with
      | [] => []
      | l :: rest => linkPiece "" l :: rest.map (linkPiece ",")
    { text := "[" } :: links ++ [{ text := "]\n" }]

end Graph

/-- The answer for a graph without solutions. -/
def unsolvableDocument : Document where
  context := "while writing the graph is unsolvable"
  pieces := [{ text := "NO\n" }]

/-- The answer for a graph with solutions. -/
def solvableDocument (count : Nat) : Document where
  context := "while writing a solved form count"
  pieces := [{ text := "YES " ++ count.repr ++ "\n" }]

end Dominance
